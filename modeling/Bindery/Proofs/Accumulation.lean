import Bindery.Proofs.Ledger
import Bindery.Proofs.Staging

set_option autoImplicit false

namespace Bindery

open Bindery.Action

variable {F σ : Type} {key : String}

/-- The values that a target is sent by deeds. -/
def deliveries (deeds : List (Deed F σ)) : List (Value F) :=
  deeds.filterMap Deed.sent?

/-- The calls for one item of a step: the function of each qualifier, up to a filter that rejects
the item, and what follows if none does. -/
inductive Trail (follows : List (Deed F σ) → Prop) :
    List (Qualifier F) → List (List (Deed F σ)) → Prop
  | passed {deeds : List (Deed F σ)} (follow : follows deeds) : Trail follows [] [deeds]
  | kept {predicate : Callback F} {rest : List (Qualifier F)} {turn : Turn F σ}
      {verdict : Value F} {trail : List (List (Deed F σ))}
      (answers : turn.Answers predicate verdict) (truth : verdict.isTrue = true)
      (later : Trail follows rest trail) :
      Trail follows (.filter predicate :: rest) ([.call turn] :: trail)
  | rejected {predicate : Callback F} {rest : List (Qualifier F)} {turn : Turn F σ}
      {verdict : Value F} (answers : turn.Answers predicate verdict)
      (truth : verdict.isTrue = false) : Trail follows (.filter predicate :: rest) [[.call turn]]
  | extended {added : Target} {thunk : Callback F} {rest : List (Qualifier F)} {turn : Turn F σ}
      {defined : Value F} {trail : List (List (Deed F σ))}
      (answers : turn.Answers thunk defined) (later : Trail follows rest trail) :
      Trail follows (.define added thunk :: rest) ([.call turn] :: trail)

/-- What follows the qualifiers of a step: a call of its block, or what else there is to do. -/
def Step.Follows (step : Step F) (proceeds : List (Deed F σ) → Prop) (deeds : List (Deed F σ)) :
    Prop :=
  if step.hasBlock then ∃ turn result, deeds = [.call turn] ∧ turn.Answers step.block result
  else proceeds deeds

/-- The deeds of steps that send a target nothing: calls alone, and `inner` for each item that
passes all of them. -/
def Chained (inner : List (Deed F σ) → Prop) : List (Step F) → List (Deed F σ) → Prop
  | [], deeds => inner deeds
  | step :: rest, deeds =>
      step.RunOf (fun _ => Trail (step.Follows (Chained inner rest)) step.qualifiers) deeds

/-- A trail on which a component is delivered first at each place from `place` on. -/
def delivered (place : Nat) (component : Value F) (trail : List (List (Deed F σ))) :
    List (List (Deed F σ)) :=
  trail.take place ++ (trail.drop place).map (.delivery component :: ·)

/-- The item is rejected by the qualifier with this number, counted from one: the call of that
filter is the last on its trail. -/
structure RejectedAt (qualifiers : List (Qualifier F)) (trail : List (List (Deed F σ)))
    (number : Nat) : Prop where
  length : trail.length = number
  rejected : ∃ predicate turn verdict, qualifiers[number - 1]? = some (.filter predicate) ∧
    trail.getLast? = some [.call turn] ∧ turn.Answers predicate verdict ∧ verdict.isTrue = false

/-- The target that a step binds at a place: its own at place zero, and else that of the definition
with that number, counted from one. -/
def Step.targetAt? (step : Step F) : Nat → Option Target
  | 0 => some step.ownTarget
  | place + 1 =>
      match step.qualifiers[place]? with
      | some (.define added _) => some added
      | _ => none

/-- The external target has this component of what is bound at a place: of the item itself at place
zero, and else of what the definition gives. -/
def Bears (key : String) (target : Target) (item : Value F) (trail : List (List (Deed F σ))) :
    Nat → Value F → Prop
  | 0, component => target.sentTo key item = [component]
  | place + 1, component => ∃ turn defined, trail[place]? = some [.call turn] ∧
      turn.answer = .ok defined ∧ target.sentTo key defined = [component]

/-- What becomes of an item, and how often its component is delivered. The number of qualifiers
that are left after the place counts, and one more, if the item passes; the number of those up to
the one that rejects it, if it is rejected after the place; and none if it is rejected before. -/
inductive Fate (key : String) (target : Target) (step : Step F)
    (follows : List (Deed F σ) → Prop) (place : Nat) (item : Value F) :
    List (List (Deed F σ)) → Prop
  | passed {trail : List (List (Deed F σ))} {component : Value F}
      (calls : Trail follows step.qualifiers trail)
      (passes : trail.length = step.qualifiers.length + 1)
      (bears : Bears key target item trail place component)
      (count : deliveries (delivered place component trail).flatten =
        List.replicate (step.qualifiers.length - place + 1) component) :
      Fate key target step follows place item (delivered place component trail)
  | rejectedAfter {trail : List (List (Deed F σ))} {component : Value F} {number : Nat}
      (calls : Trail follows step.qualifiers trail)
      (rejected : RejectedAt step.qualifiers trail number) (after : place < number)
      (bears : Bears key target item trail place component)
      (count : deliveries (delivered place component trail).flatten =
        List.replicate (number - place) component) :
      Fate key target step follows place item (delivered place component trail)
  | rejectedBefore {trail : List (List (Deed F σ))} {number : Nat}
      (calls : Trail follows step.qualifiers trail)
      (rejected : RejectedAt step.qualifiers trail number) (before : number < place)
      (count : deliveries trail.flatten = []) :
      Fate key target step follows place item trail

/-- What is delivered along a trail: nothing if it ends before the place, and else a component from
the place on. -/
def Sends (key : String) (target : Target) (item : Value F) (place : Nat)
    (trail course : List (List (Deed F σ))) : Prop :=
  course = trail ∧ trail.length < place ∨
    ∃ component, course = delivered place component trail ∧ place < trail.length ∧
      Bears key target item trail place component

theorem deliveries_append (first second : List (Deed F σ)) :
    deliveries (first ++ second) = deliveries first ++ deliveries second :=
  List.filterMap_append

theorem delivered_zero (component : Value F) (trail : List (List (Deed F σ))) :
    delivered 0 component trail = trail.map (.delivery component :: ·) := rfl

theorem delivered_succ_cons (place : Nat) (component : Value F) (calls : List (Deed F σ))
    (trail : List (List (Deed F σ))) :
    delivered (place + 1) component (calls :: trail) = calls :: delivered place component trail :=
  rfl

theorem deliveries_flatten_delivered {trail : List (List (Deed F σ))}
    (quiet : ∀ calls ∈ trail, deliveries calls = []) (place : Nat) (component : Value F) :
    deliveries (delivered place component trail).flatten =
      List.replicate (trail.length - place) component := by
  induction trail generalizing place with
  | nil => simp [delivered, deliveries]
  | cons calls rest ih =>
      rw [List.forall_mem_cons] at quiet
      cases place with
      | zero =>
          have others := ih quiet.2 0
          rw [delivered_zero] at others ⊢
          rw [List.map_cons, List.flatten_cons, List.cons_append, List.length_cons, Nat.sub_zero,
            List.replicate_succ]
          show component :: deliveries (calls ++ _) = _
          rw [deliveries_append, quiet.1, List.nil_append, others, Nat.sub_zero]
      | succ place =>
          rw [delivered_succ_cons, List.flatten_cons, deliveries_append, quiet.1, List.nil_append,
            ih quiet.2 place, List.length_cons, Nat.add_sub_add_right]

theorem deliveries_flatten_of_quiet {lists : List (List (Deed F σ))}
    (quiet : ∀ deeds ∈ lists, deliveries deeds = []) : deliveries lists.flatten = [] := by
  rw [deliveries, List.filterMap_flatten, List.flatten_eq_nil_iff, List.forall_mem_map]
  exact quiet

section Trails

variable {follows : List (Deed F σ) → Prop} {qualifiers : List (Qualifier F)}
  {trail : List (List (Deed F σ))}

theorem RejectedAt.cons (rejected : RejectedAt qualifiers trail trail.length)
    (qualifier : Qualifier F) (calls : List (Deed F σ)) :
    RejectedAt (qualifier :: qualifiers) (calls :: trail) (calls :: trail).length := by
  obtain ⟨-, predicate, turn, verdict, found, last, answers, truth⟩ := rejected
  cases trail with
  | nil => simp at last
  | cons first rest =>
      refine ⟨rfl, predicate, turn, verdict, ?_, ?_, answers, truth⟩
      · exact found
      · rw [List.getLast?_cons_cons]
        exact last

theorem Trail.length_pos (calls : Trail follows qualifiers trail) : 0 < trail.length := by
  cases calls <;> exact Nat.succ_pos _

/-- An item passes all qualifiers, or one of them rejects it. -/
theorem Trail.length_or_rejectedAt (calls : Trail follows qualifiers trail) :
    trail.length = qualifiers.length + 1 ∨ RejectedAt qualifiers trail trail.length := by
  induction calls with
  | passed => exact Or.inl rfl
  | rejected answers truth => exact Or.inr ⟨rfl, _, _, _, rfl, rfl, answers, truth⟩
  | kept _ _ _ ih => exact ih.imp (congrArg (· + 1)) fun rejected => rejected.cons _ _
  | extended _ _ ih => exact ih.imp (congrArg (· + 1)) fun rejected => rejected.cons _ _

theorem Trail.quiet (calls : Trail follows qualifiers trail)
    (quiet : ∀ deeds, follows deeds → deliveries deeds = []) :
    ∀ deeds ∈ trail, deliveries deeds = [] := by
  induction calls with
  | passed follow => exact List.forall_mem_singleton.mpr (quiet _ follow)
  | rejected => exact List.forall_mem_singleton.mpr rfl
  | kept _ _ _ ih => exact List.forall_mem_cons.mpr ⟨rfl, ih⟩
  | extended _ _ ih => exact List.forall_mem_cons.mpr ⟨rfl, ih⟩

theorem deliveries_inRounds {courses : List (List (List (Deed F σ)))}
    (quiet : ∀ course ∈ courses, ∀ deeds ∈ course, deliveries deeds = []) (rounds : Nat) :
    deliveries (inRounds rounds courses) = [] := by
  rw [inRounds, List.flatMap]
  apply deliveries_flatten_of_quiet
  rw [List.forall_mem_map]
  intro place _
  rw [column, List.flatMap]
  apply deliveries_flatten_of_quiet
  rw [List.forall_mem_map]
  intro course member
  rw [List.getD_eq_getElem?_getD]
  cases found : course[place]? with
  | none => rfl
  | some deeds => exact quiet course member deeds (List.mem_of_getElem? found)

theorem Step.Follows.quiet {step : Step F} {proceeds : List (Deed F σ) → Prop}
    (quiet : ∀ deeds, proceeds deeds → deliveries deeds = []) :
    ∀ deeds, step.Follows proceeds deeds → deliveries deeds = [] := by
  intro deeds follow
  unfold Step.Follows at follow
  split at follow
  · obtain ⟨turn, result, rfl, -⟩ := follow
    rfl
  · exact quiet deeds follow

theorem Step.RunOf.quiet {step : Step F} {course : Value F → List (List (Deed F σ)) → Prop}
    {deeds : List (Deed F σ)} (run : step.RunOf course deeds)
    (each : ∀ item stretches, course item stretches → ∀ part ∈ stretches, deliveries part = []) :
    deliveries deeds = [] := by
  obtain ⟨draw, number, items, courses, rfl, -, related⟩ := run
  have courseQuiet : ∀ stretches ∈ courses, ∀ part ∈ stretches, deliveries part = [] := by
    induction related with
    | nil => simp
    | cons first _ ih => exact List.forall_mem_cons.mpr ⟨each _ _ first, ih⟩
  exact deliveries_inRounds courseQuiet _

theorem Chained.quiet {inner : List (Deed F σ) → Prop} {steps : List (Step F)}
    (quiet : ∀ deeds, inner deeds → deliveries deeds = []) :
    ∀ deeds, Chained inner steps deeds → deliveries deeds = [] := by
  induction steps with
  | nil => exact quiet
  | cons step rest ih =>
      intro deeds run
      exact Step.RunOf.quiet run fun _ _ calls => calls.quiet (Step.Follows.quiet ih)

end Trails

section Courses

variable {closes : List (Value F) → List (Deed F σ) → Prop} {follows : List (Deed F σ) → Prop}
  {target : Target} {qualifiers : List (Qualifier F)} {sent : List (Value F)}
  {course : List (List (Deed F σ))}

/-- An item is captured sooner or later, and then a target is sent one value for each place. -/
theorem Course.length_sent {count : Nat} (run : Course key closes target qualifiers sent course)
    (closing : ∀ deeds, closes sent deeds → sent.length = count)
    (occurs : target.cells.count (.external key) = count) : sent.length = count := by
  cases run with
  | closed closes => exact closing _ closes
  | kept visit =>
      cases visit with
      | passes asked | extended asked => exact asked.1.trans occurs
  | dropped visit =>
      cases visit with
      | rejects asked => exact asked.1.trans occurs

/-- Where no definition binds a target any more, it is sent the same before each call. -/
theorem Course.exists_trail (run : Course key closes target qualifiers sent course)
    (absent : ∀ qualifier ∈ qualifiers, .external key ∉ qualifier.call.cells)
    (closing : ∀ deeds, closes sent deeds →
      ∃ rest, deeds = sent.map .delivery ++ rest ∧ follows rest) :
    ∃ trail, Trail follows qualifiers trail ∧ course = trail.map (sent.map .delivery ++ ·) := by
  induction run with
  | closed closes =>
      obtain ⟨rest, rfl, follow⟩ := closing _ closes
      exact ⟨[rest], .passed follow, rfl⟩
  | kept visit _ ih =>
      rw [List.forall_mem_cons] at absent
      cases visit with
      | passes asked truth =>
          obtain ⟨-, turn, rfl, answers⟩ := asked
          obtain ⟨trail, calls, rfl⟩ := ih absent.2 closing
          exact ⟨[.call turn] :: trail, .kept answers truth calls, rfl⟩
      | extended asked =>
          obtain ⟨-, turn, rfl, answers⟩ := asked
          rw [Target.sentTo_of_absent absent.1, List.append_nil] at ih
          obtain ⟨trail, calls, rfl⟩ := ih absent.2 closing
          exact ⟨[.call turn] :: trail, .extended answers calls, rfl⟩
  | dropped visit =>
      cases visit with
      | rejects asked truth =>
          obtain ⟨-, turn, rfl, answers⟩ := asked
          exact ⟨[[.call turn]], .rejected answers truth, rfl⟩

theorem Sends.cons {item : Value F} {place : Nat} {trail : List (List (Deed F σ))}
    (sends : Sends key target item (place + 1) trail course) (calls : List (Deed F σ)) :
    Sends key target item (place + 1 + 1) (calls :: trail) (calls :: course) := by
  rcases sends with ⟨rfl, short⟩ | ⟨component, rfl, long, bears⟩
  · exact Or.inl ⟨rfl, Nat.succ_lt_succ short⟩
  · exact Or.inr ⟨component, rfl, Nat.succ_lt_succ long, bears⟩

/-- A target that the next definition binds is sent its component of what is defined, after it. -/
theorem Course.exists_trail_of_define_first {back : List (Qualifier F)} {added : Target}
    {thunk : Callback F} (item : Value F)
    (run : Course key closes target (.define added thunk :: back) [] course)
    (outside : .external key ∉ target.cells)
    (once : added.cells.count (.external key) = 1)
    (behind : ∀ qualifier ∈ back, .external key ∉ qualifier.call.cells)
    (closing : ∀ sent deeds, closes sent deeds → sent.length = 1 ∧
      ∃ rest, deeds = sent.map .delivery ++ rest ∧ follows rest) :
    ∃ trail, Trail follows (.define added thunk :: back) trail ∧
      Sends key added item 1 trail course := by
  cases run with
  | dropped visit => cases visit
  | kept visit later =>
      cases visit with
      | @extended _ _ _ _ defined asked =>
          obtain ⟨-, turn, rfl, answers⟩ := asked
          rw [List.nil_append] at later
          have occurs : (Qualifier.retarget target (.define added thunk)).cells.count
              (.external key) = 1 := by
            simp [Qualifier.retarget, Target.cells, Target.allCells, once,
              List.count_eq_zero_of_not_mem outside]
          have single := later.length_sent (fun deeds closes => (closing _ deeds closes).1) occurs
          obtain ⟨component, bears⟩ := List.length_eq_one_iff.mp single
          obtain ⟨trail, calls, rfl⟩ := later.exists_trail behind
            fun deeds closes => (closing _ deeds closes).2
          refine ⟨[.call turn] :: trail, .extended answers calls, Or.inr ⟨component, ?_,
            Nat.succ_lt_succ calls.length_pos, turn, defined, rfl, answers.answer, bears⟩⟩
          rw [bears]
          rfl

theorem Course.exists_trail_of_define {front back : List (Qualifier F)} {added : Target}
    {thunk : Callback F} (item : Value F)
    (run : Course key closes target (front ++ .define added thunk :: back) [] course)
    (outside : .external key ∉ target.cells)
    (before : ∀ qualifier ∈ front, .external key ∉ qualifier.call.cells)
    (once : added.cells.count (.external key) = 1)
    (behind : ∀ qualifier ∈ back, .external key ∉ qualifier.call.cells)
    (closing : ∀ sent deeds, closes sent deeds → sent.length = 1 ∧
      ∃ rest, deeds = sent.map .delivery ++ rest ∧ follows rest) :
    ∃ trail, Trail follows (front ++ .define added thunk :: back) trail ∧
      Sends key added item (front.length + 1) trail course := by
  -- nothing is to be sent while the front is passed, so each stretch is a call alone
  induction front generalizing target course with
  | nil => exact run.exists_trail_of_define_first item outside once behind closing
  | cons qualifier rest ih =>
      rw [List.forall_mem_cons] at before
      cases run with
      | kept visit later =>
          cases visit with
          | passes asked truth =>
              obtain ⟨-, turn, rfl, answers⟩ := asked
              obtain ⟨trail, calls, sends⟩ := ih later outside before.2
              exact ⟨[.call turn] :: trail, .kept answers truth calls, sends.cons _⟩
          | @extended earlier _ _ _ _ asked =>
              obtain ⟨-, turn, rfl, answers⟩ := asked
              have apart : .external key ∉ (Target.tuple [target, earlier]).cells := by
                have other : .external key ∉ earlier.cells := before.1
                simp [Target.cells, Target.allCells, outside, other]
              rw [Target.sentTo_of_absent before.1, List.append_nil] at later
              obtain ⟨trail, calls, sends⟩ := ih later apart before.2
              exact ⟨[.call turn] :: trail, .extended answers calls, sends.cons _⟩
      | dropped visit =>
          cases visit with
          | rejects asked truth =>
              obtain ⟨-, turn, rfl, answers⟩ := asked
              refine ⟨[[.call turn]], .rejected answers truth, Or.inl ⟨rfl, ?_⟩⟩
              exact Nat.succ_lt_succ (Nat.succ_pos _)

theorem Course.exists_trail_of_own {item : Value F}
    (run : Course key closes target qualifiers (target.sentTo key item) course)
    (once : target.cells.count (.external key) = 1)
    (absent : ∀ qualifier ∈ qualifiers, .external key ∉ qualifier.call.cells)
    (closing : ∀ sent deeds, closes sent deeds → sent.length = 1 ∧
      ∃ rest, deeds = sent.map .delivery ++ rest ∧ follows rest) :
    ∃ trail, Trail follows qualifiers trail ∧ Sends key target item 0 trail course := by
  have single := run.length_sent (fun deeds closes => (closing _ deeds closes).1) once
  obtain ⟨component, bears⟩ := List.length_eq_one_iff.mp single
  obtain ⟨trail, calls, rfl⟩ := run.exists_trail absent
    fun deeds closes => (closing _ deeds closes).2
  refine ⟨trail, calls, Or.inr ⟨component, ?_, calls.length_pos, bears⟩⟩
  rw [bears]
  rfl

/-- What is delivered along a trail is counted by where the trail ends. -/
theorem Sends.fate {step : Step F} {item : Value F} {place : Nat}
    {trail : List (List (Deed F σ))} (sends : Sends key target item place trail course)
    (calls : Trail follows step.qualifiers trail) (inside : place ≤ step.qualifiers.length)
    (quiet : ∀ deeds, follows deeds → deliveries deeds = []) :
    Fate key target step follows place item course := by
  rcases sends with ⟨rfl, short⟩ | ⟨component, rfl, long, bears⟩
  · have none := deliveries_flatten_of_quiet (calls.quiet quiet)
    rcases calls.length_or_rejectedAt with whole | rejected
    · omega
    · exact .rejectedBefore calls rejected short none
  · have count := deliveries_flatten_delivered (calls.quiet quiet) place component
    rcases calls.length_or_rejectedAt with whole | rejected
    · refine .passed calls whole bears ?_
      rw [count, whole, Nat.sub_add_comm inside]
    · exact .rejectedAfter calls rejected long bears count

end Courses

section Steps

variable {step : Step F} {target : Target}

theorem Step.Closes.follows {last : Bool} {proceeds onward : List (Deed F σ) → Prop}
    {sent : List (Value F)} {deeds : List (Deed F σ)}
    (closes : step.Closes key last proceeds sent deeds)
    (implies : ∀ deeds, proceeds deeds → onward deeds)
    (ends : step.hasBlock = false → last = true → sent = [] ∧ onward []) :
    ∃ rest, deeds = sent.map .delivery ++ rest ∧ step.Follows onward rest := by
  unfold Step.Closes at closes
  unfold Step.Follows
  cases carried : step.hasBlock with
  | true =>
      simp only [carried, ↓reduceIte] at closes ⊢
      obtain ⟨result, -, turn, rfl, answers⟩ := closes
      exact ⟨[.call turn], rfl, turn, result, rfl, answers⟩
  | false =>
      simp only [carried, Bool.false_eq_true, ↓reduceIte] at closes ⊢
      split at closes
      · rename_i whole
        obtain ⟨rfl, nothing⟩ := ends carried whole
        exact ⟨[], closes, nothing⟩
      · obtain ⟨-, later, rfl, proceeding⟩ := closes
        exact ⟨later, rfl, implies later proceeding⟩

theorem Step.Closes.length_sent {last : Bool} {proceeds : List (Deed F σ) → Prop}
    {sent : List (Value F)} {deeds : List (Deed F σ)}
    (closes : step.Closes key last proceeds sent deeds)
    (goesOn : step.hasBlock = false → last = false) :
    sent.length = step.target.cells.count (.external key) := by
  unfold Step.Closes at closes
  cases carried : step.hasBlock with
  | true =>
      simp only [carried, ↓reduceIte] at closes
      obtain ⟨result, full, -⟩ := closes
      exact full
  | false =>
      simp only [carried, goesOn carried, Bool.false_eq_true, ↓reduceIte] at closes
      exact closes.1

theorem absent_of_not_mem_flatMap {qualifiers : List (Qualifier F)}
    (absent : .external key ∉ (qualifiers.map Qualifier.call).flatMap Call.cells) :
    ∀ qualifier ∈ qualifiers, .external key ∉ qualifier.call.cells :=
  fun _ member among => absent (List.mem_flatMap.mpr ⟨_, List.mem_map_of_mem member, among⟩)

theorem Step.absent_parts (absent : .external key ∉ step.target.cells) :
    .external key ∉ step.ownTarget.cells ∧
      ∀ qualifier ∈ step.qualifiers, .external key ∉ qualifier.call.cells := by
  rw [Step.target, cells_foldl_retarget, List.mem_append, not_or] at absent
  exact ⟨absent.1, absent_of_not_mem_flatMap absent.2⟩

theorem Ledger.chained {steps rest : List (Step F)} {inner : List (Deed F σ) → Prop}
    {deeds : List (Deed F σ)} (ledger : Ledger key (steps ++ rest) deeds)
    (absent : ∀ step ∈ steps, .external key ∉ step.target.cells)
    (onward : ∀ deeds, Ledger key rest deeds → inner deeds) (ends : rest = [] → inner []) :
    Chained inner steps deeds := by
  induction steps generalizing deeds with
  | nil => exact onward deeds ledger
  | cons step more ih =>
      rw [List.forall_mem_cons] at absent
      obtain ⟨own, qualified⟩ := Step.absent_parts absent.1
      obtain ⟨draw, number, items, courses, rfl, answers, each⟩ := ledger
      refine ⟨draw, number, items, courses, rfl, answers, each.imp ?_⟩
      intro item course run
      rw [Target.sentTo_of_absent own] at run
      obtain ⟨trail, calls, rfl⟩ := run.exists_trail qualified fun part closes =>
        closes.follows (fun _ proceeding => ih proceeding absent.2) fun _ last => by
          have both : more = [] ∧ rest = [] := List.append_eq_nil_iff.mp (List.isEmpty_iff.mp last)
          obtain ⟨rfl, rfl⟩ := both
          exact ⟨rfl, ends rfl⟩
      simpa using calls

theorem Step.exists_split_of_targetAt? {place : Nat}
    (found : step.targetAt? (place + 1) = some target) :
    ∃ front thunk back, step.qualifiers = front ++ .define target thunk :: back ∧
      front.length = place := by
  rw [Step.targetAt?] at found
  split at found
  · rename_i added thunk present
    cases found
    obtain ⟨inside, same⟩ := List.getElem?_eq_some_iff.mp present
    refine ⟨step.qualifiers.take place, thunk, step.qualifiers.drop (place + 1), ?_, ?_⟩
    · rw [← same, List.getElem_cons_drop, List.take_append_drop]
    · exact List.length_take_of_le (Nat.le_of_lt inside)
  · cases found

theorem Step.mem_cells_of_targetAt? {place : Nat} {cell : Cell}
    (found : step.targetAt? place = some target) (inside : cell ∈ target.cells) :
    cell ∈ step.target.cells := by
  rw [Step.target, cells_foldl_retarget, List.mem_append]
  cases place with
  | zero =>
      cases found
      exact Or.inl inside
  | succ place =>
      obtain ⟨front, thunk, back, same, -⟩ := Step.exists_split_of_targetAt? found
      rw [same]
      exact Or.inr (List.mem_flatMap.mpr ⟨.define target thunk, by simp [Qualifier.call], inside⟩)

theorem absent_around {outers later : List (Step F)} {cell : Cell}
    (own : cell ∈ step.target.cells)
    (once : ((outers ++ step :: later).flatMap fun other => other.target.cells).count cell = 1) :
    (∀ other ∈ outers, cell ∉ other.target.cells) ∧ step.target.cells.count cell = 1 ∧
      ∀ other ∈ later, cell ∉ other.target.cells := by
  have positive := List.count_pos_iff.mpr own
  rw [List.flatMap_append, List.flatMap_cons, List.count_append, List.count_append] at once
  have apart : ∀ steps : List (Step F),
      (steps.flatMap fun other => other.target.cells).count cell = 0 →
        ∀ other ∈ steps, cell ∉ other.target.cells :=
    fun _ none _ member among =>
      List.count_eq_zero.mp none (List.mem_flatMap.mpr ⟨_, member, among⟩)
  refine ⟨apart outers ?_, ?_, apart later ?_⟩ <;> omega

theorem Course.exists_sends {closes : List (Value F) → List (Deed F σ) → Prop}
    {follows : List (Deed F σ) → Prop} {place : Nat} {item : Value F}
    {course : List (List (Deed F σ))}
    (run : Course key closes step.ownTarget step.qualifiers (step.ownTarget.sentTo key item) course)
    (found : step.targetAt? place = some target) (inside : .external key ∈ target.cells)
    (once : step.target.cells.count (.external key) = 1)
    (closing : ∀ sent deeds, closes sent deeds → sent.length = 1 ∧
      ∃ rest, deeds = sent.map .delivery ++ rest ∧ follows rest) :
    place ≤ step.qualifiers.length ∧
      ∃ trail, Trail follows step.qualifiers trail ∧ Sends key target item place trail course := by
  have positive := List.count_pos_iff.mpr inside
  rw [Step.target, cells_foldl_retarget, List.count_append] at once
  cases place with
  | zero =>
      cases found
      have single : step.ownTarget.cells.count (.external key) = 1 := by omega
      have none : ((step.qualifiers.map Qualifier.call).flatMap Call.cells).count
          (.external key) = 0 := by omega
      have absent := absent_of_not_mem_flatMap (List.count_eq_zero.mp none)
      exact ⟨Nat.zero_le _, run.exists_trail_of_own single absent closing⟩
  | succ place =>
      obtain ⟨front, thunk, back, same, rfl⟩ := Step.exists_split_of_targetAt? found
      rw [same] at run once ⊢
      rw [List.map_append, List.map_cons, List.flatMap_append, List.flatMap_cons,
        List.count_append, List.count_append] at once
      have defined : (Qualifier.define target thunk).call.cells = target.cells := rfl
      rw [defined] at once
      have outside : .external key ∉ step.ownTarget.cells := List.count_eq_zero.mp (by omega)
      have before := absent_of_not_mem_flatMap (List.count_eq_zero.mp
        (show ((front.map Qualifier.call).flatMap Call.cells).count (.external key) = 0 by omega))
      have behind := absent_of_not_mem_flatMap (List.count_eq_zero.mp
        (show ((back.map Qualifier.call).flatMap Call.cells).count (.external key) = 0 by omega))
      have single : target.cells.count (.external key) = 1 := by omega
      rw [Target.sentTo_of_absent outside] at run
      exact ⟨by simp, run.exists_trail_of_define item outside before single behind closing⟩

/-- The items of the step that binds the target, where it is followed by steps that the target does
not occur in. -/
theorem Ledger.fates {later : List (Step F)} {place : Nat} {deeds : List (Deed F σ)}
    (ledger : Ledger key (step :: later) deeds)
    (goesOn : later ≠ [] ∨ step.hasBlock = true) (found : step.targetAt? place = some target)
    (inside : .external key ∈ target.cells)
    (once : step.target.cells.count (.external key) = 1)
    (absent : ∀ other ∈ later, .external key ∉ other.target.cells) :
    step.RunOf (Fate key target step (step.Follows (Chained (· = []) later)) place) deeds := by
  have quiet : ∀ deeds : List (Deed F σ), step.Follows (Chained (· = []) later) deeds →
      deliveries deeds = [] :=
    Step.Follows.quiet (Chained.quiet fun deeds nothing => by rw [nothing]; rfl)
  have open_ : step.hasBlock = false → later.isEmpty = false := by
    intro carried
    rcases goesOn with more | block
    · simpa using more
    · rw [carried] at block
      cases block
  have closing : ∀ sent (deeds : List (Deed F σ)),
      step.Closes key later.isEmpty (Ledger key later) sent deeds → sent.length = 1 ∧
        ∃ rest, deeds = sent.map .delivery ++ rest ∧
          step.Follows (Chained (· = []) later) rest := by
    intro sent deeds closes
    refine ⟨(closes.length_sent open_).trans once, closes.follows ?_ ?_⟩
    · intro part ledger
      rw [← List.append_nil later] at ledger
      exact ledger.chained absent (fun _ none => none.elim) fun _ => rfl
    · intro carried last
      rw [open_ carried] at last
      cases last
  obtain ⟨draw, number, items, courses, rfl, answers, each⟩ := ledger
  refine ⟨draw, number, items, courses, rfl, answers, each.imp ?_⟩
  intro item course run
  obtain ⟨covered, trail, calls, sends⟩ := run.exists_sends found inside once closing
  exact sends.fate calls covered quiet

end Steps

/-- A target that is bound in one place only, at this place of one step of a chain that goes on
after it, is sent its component for each item as often as the item is captured from then on: once
for each qualifier that is left, up to one that rejects the item, and once more for what follows if
none does. Each of these deliveries comes right before the call that it is for. The functions may do
anything else, as long as they are answered and leave the steps as they are. -/
theorem deliveries_of_chainSteps {call : F → Option (Value F) → Action F σ (Value F)}
    {refs : List StepRef} {outers later : List (Step F)} {step : Step F} {start : World F σ}
    {place : Nat} {target : Target} (leads : start.LeadsTo refs (outers ++ step :: later))
    (blocks : misplacedBlock? (outers ++ step :: later) = none)
    (callable : ∀ other ∈ outers ++ step :: later, other.Callable)
    (goesOn : later ≠ [] ∨ step.hasBlock = true) (found : step.targetAt? place = some target)
    (inside : .external key ∈ target.cells)
    (once : ((outers ++ step :: later).flatMap fun other => other.target.cells).count
      (.external key) = 1)
    (regular : ∀ turn ∈
      ((chainSteps (.standard (observing call)) refs).outcome (start.withLog [])).2.log,
      turn.Regular Value.IsListMonad refs (outers ++ step :: later))
    (captures : ∀ error,
      ((chainSteps (.standard (observing call)) refs).outcome (start.withLog [])).1 =
        .error error → ¬ error.IsCapture) :
    ∃ number results after deeds,
      (chainSteps (.standard (observing call)) refs).outcome (start.withLog []) =
        (.ok (.listMonad number false results), after) ∧
      Recorded key deeds (start.withLog []) after ∧
      Chained
        (step.RunOf (Fate key target step (step.Follows (Chained (· = []) later)) place))
        outers deeds := by
  obtain ⟨before, single, behind⟩ := absent_around (step.mem_cells_of_targetAt? found inside) once
  obtain ⟨number, results, after, deeds, reached, recorded, ledger⟩ :=
    ledger_of_chainSteps key leads (by simp) blocks callable regular captures
  refine ⟨number, results, after, deeds, reached, recorded, ledger.chained before ?_ nofun⟩
  intro part inner
  exact inner.fates goesOn found inside single behind

/-- A step with a definition that binds an external target, a filter, and a block of results. -/
def collectingStep : Step Bool where
  ownTarget := .slot "x" none
  source := .function true
  qualifiers :=
    [.define (.external "e" none fun _ _ => none) (.function false), .filter (.function false)]
  block := .function false

def collectingStart : World Bool Nat :=
  { contexts := [[collectingStep]], client := 0 }

/-- One of two items passes the filter, and what is defined for it is delivered for the filter and
for the block. The other one is rejected, and what is defined for it is delivered once. -/
theorem deliveries_of_chainSteps_collectingStep :
    ∃ after deeds,
      (chainSteps (.standard (observing (countingCall twoNumbers))) [⟨0, 0⟩]).outcome
          (collectingStart.withLog []) = (.ok (.listMonad none false [.int 1]), after) ∧
      Recorded "e" deeds (collectingStart.withLog []) after ∧
      collectingStep.RunOf (Fate "e" (.external "e" none fun _ _ => none) collectingStep
        (collectingStep.Follows (Chained (· = []) [])) 1) deeds ∧
      after.receivedBy "e" = [.int 1, .int 0, .int 1] := by
  have leads : collectingStart.LeadsTo [⟨0, 0⟩] ([] ++ [collectingStep]) := .cons rfl .nil
  have callable : ∀ step ∈ [] ++ [collectingStep], step.Callable := by
    intro step member
    rw [List.mem_singleton.mp member]
    exact ⟨⟨true, rfl⟩, by simp [collectingStep, Qualifier.callback], fun _ => ⟨false, rfl⟩⟩
  have sources : ∀ step ∈ [] ++ [collectingStep], step.source = .function true := by
    simp [collectingStep]
  have begun : World.Orderly (Turn.Regular Value.IsListMonad [⟨0, 0⟩] ([] ++ [collectingStep]))
      (collectingStart.withLog []) := by
    simp [World.Orderly, World.log, World.withLog]
  have regular := ((ordinary_chainSteps [⟨0, 0⟩]).orderly
    (regular_countingCall twoNumbers (fun _ => ⟨_, _, rfl⟩) sources _)).outcome begun
  have ended : ((chainSteps (.standard (observing (countingCall twoNumbers)))
      [⟨0, 0⟩]).outcome (collectingStart.withLog [])).1 =
        .ok (.listMonad none false [.int 1]) := rfl
  obtain ⟨number, results, after, deeds, chained, recorded, run⟩ :=
    deliveries_of_chainSteps leads rfl callable (Or.inr rfl)
      (show collectingStep.targetAt? 1 = some (.external "e" none fun _ _ => none) from rfl)
      (List.mem_singleton.mpr rfl) (by decide) regular (by simp [ended])
  have received : [.int 1, .int 0, .int 1] = after.receivedBy "e" :=
    congrArg (fun ran => ran.2.receivedBy "e") chained
  have value := ended
  rw [chained, Except.ok.injEq] at value
  exact ⟨after, deeds, value ▸ chained, recorded, run, received.symm⟩

end Bindery
