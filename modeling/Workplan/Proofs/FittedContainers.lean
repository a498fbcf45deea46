/-
# Workplan.Proofs.FittedContainers — fitting leaves no container off its subtasks

A container is fitted if it starts with the first of the tasks directly inside it and ends with the last.
New dates for one container can put none off but the container around it, and a round hands exactly
that one on to the next. So the containers that are off are always among those still to come, in whatever
order a round takes them, and when nothing is to come, none is off:

* `isFitted_iff` — a container is fitted if its dates are those that fitting would give it;
* `off_of_fitRound` — what a round leaves off;
* `Rounds.isFitted`, `Rounds.redatedBy`, `Rounds.under` — what rounds up to an empty one lead to, and
  which dates they change;
* `fit_restores` — if the containers of the given tasks include all that are off, then all containers
  are fitted afterwards, and none but the containers around the given tasks has other dates.
-/
import Mathlib.Order.Bounds.Defs
import Workplan.Proofs.FittingRounds
import Workplan.Proofs.StartWindows

namespace Workplan

set_option autoImplicit false

namespace Outline

/-- A task with others nested in it starts with the first of them and ends with the last. -/
def IsFitted (o : Outline) (id : TaskId) : Prop :=
  ∀ task, o.task? id = some task → o.nested id ≠ [] →
    IsLeast (o.childStarts id) task.start ∧ IsGreatest (o.childFinishes id) task.finish

variable {o dated : Outline} {tasks : Set TaskId} {id : TaskId}

theorem isFitted_of_leaf (leaf : o.nested id = []) : o.IsFitted id :=
  fun _ _ nested => absurd leaf nested

/-- Whether a container is fitted depends on its own dates and on those directly inside it. -/
theorem RedatedOn.isFitted_iff (redated : o.RedatedOn tasks dated) (own : id ∉ tasks)
    (children : ∀ child, o.container child = some id → child ∉ tasks) :
    dated.IsFitted id ↔ o.IsFitted id := by
  obtain ⟨starts, finishes⟩ := redated.childDates_eq children
  simp only [IsFitted, redated.others id own, redated.nested, starts, finishes]

end Outline

namespace Bounds

variable {o fitted final : Outline} {id : TaskId} {changed : List TaskId}

/-! ## One container -/

theorem isLeast_of_min? {dates : List Date} {first : Date} (least : dates.min? = some first) :
    IsLeast {date | date ∈ dates} first := by
  obtain ⟨member, smallest⟩ := List.min?_eq_some_iff.mp least
  exact ⟨member, fun date listed => smallest date listed⟩

theorem isGreatest_of_max? {dates : List Date} {last : Date} (greatest : dates.max? = some last) :
    IsGreatest {date | date ∈ dates} last := by
  obtain ⟨member, largest⟩ := List.max?_eq_some_iff.mp greatest
  exact ⟨member, fun date listed => largest date listed⟩

/-- What spans a task with others nested in it. -/
theorem spanOfNested?_spec (forest : o.hierarchy.IsForest) (nested : o.nested id ≠ []) :
    ∃ first last, spanOfNested? o id = some (first, last) ∧
      IsLeast (o.childStarts id) first ∧ IsGreatest (o.childFinishes id) last := by
  have subtasks : ∀ task, task ∈ (o.nested id).filterMap o.task? ↔
      ∃ child, o.container child = some id ∧ o.task? child = some task := by
    intro task
    rw [List.mem_filterMap]
    exact exists_congr fun child => and_congr_left fun _ => forest.mem_nested id child
  have dates : ∀ f : Task → Date, {date | ∃ child task, o.container child = some id ∧
      o.task? child = some task ∧ date = f task} =
        {date | date ∈ ((o.nested id).filterMap o.task?).map f} := by
    intro f
    ext date
    simp only [Set.mem_ofPred_eq, List.mem_map, subtasks]
    constructor
    · rintro ⟨child, task, below, found, rfl⟩
      exact ⟨task, ⟨child, below, found⟩, rfl⟩
    · rintro ⟨task, ⟨child, below, found⟩, rfl⟩
      exact ⟨child, task, below, found, rfl⟩
  obtain ⟨child, inside⟩ := List.exists_mem_of_ne_nil _ nested
  have below : o.container child = some id := (forest.mem_nested id child).mp inside
  obtain ⟨subtask, found⟩ := Outline.exists_task?_iff.mpr (Outline.mem_ids_of_container below)
  have some := (subtasks subtask).mpr ⟨child, below, found⟩
  obtain ⟨first, least⟩ := Option.isSome_iff_exists.mp
    (List.isSome_min?_of_mem (List.mem_map_of_mem (f := Task.start) some))
  obtain ⟨last, greatest⟩ := Option.isSome_iff_exists.mp
    (List.isSome_max?_of_mem (List.mem_map_of_mem (f := Task.finish) some))
  refine ⟨first, last, by simp only [spanOfNested?, least, greatest], ?_, ?_⟩
  · rw [Outline.childStarts, dates]
    exact isLeast_of_min? least
  · rw [Outline.childFinishes, dates]
    exact isGreatest_of_max? greatest

theorem mem_ids_of_nested (nested : o.nested id ≠ []) : id ∈ o.ids :=
  by_contra fun unknown => nested (Outline.nested_of_unknown unknown)

/-- A container is fitted if its dates are those that fitting would give it. -/
theorem isFitted_iff (forest : o.hierarchy.IsForest) :
    o.IsFitted id ↔ o.nested id = [] ∨ spanOfNested? o id = o.dates? id := by
  by_cases leaf : o.nested id = []
  · exact ⟨fun _ => .inl leaf, fun _ => Outline.isFitted_of_leaf leaf⟩
  · obtain ⟨first, last, span, least, greatest⟩ := spanOfNested?_spec forest leaf
    obtain ⟨task, found⟩ := Outline.exists_task?_iff.mpr (mem_ids_of_nested leaf)
    rw [or_iff_right leaf, span, Outline.dates?_of_task? found]
    constructor
    · intro isFitted
      obtain ⟨start, finish⟩ := isFitted task found leaf
      rw [Window.least_unique least start, Window.greatest_unique greatest finish]
    · intro same other there _
      cases found.symm.trans there
      obtain ⟨rfl, rfl⟩ : first = task.start ∧ last = task.finish :=
        Prod.mk.inj (Option.some.inj same)
      exact ⟨least, greatest⟩

/-- Fitting leaves the container alone if it is fitted. -/
theorem isFitted_of_refit? (forest : o.hierarchy.IsForest) (same : refit? o id = .ok none) :
    o.IsFitted id := by
  rw [isFitted_iff forest]
  by_cases leaf : o.nested id = []
  · exact .inl leaf
  · obtain ⟨first, last, span, -, -⟩ := spanOfNested?_spec forest leaf
    obtain ⟨task, found⟩ := Outline.exists_task?_iff.mpr (mem_ids_of_nested leaf)
    simp only [refit?, span, found] at same
    split at same
    · rename_i dates
      rw [span, Outline.dates?_of_task? found, dates.1, dates.2]
      exact .inr rfl
    · cases set : o.setDates id first last <;> simp [set, Except.map] at same

/-- Otherwise it gets other dates, with which it is. -/
theorem isFitted_of_refit?_some (forest : o.hierarchy.IsForest)
    (done : refit? o id = .ok (some fitted)) :
    o.RedatedOn {id} fitted ∧ fitted.dates? id ≠ o.dates? id ∧ fitted.IsFitted id := by
  unfold refit? at done
  split at done
  · rename_i first last task span found
    split at done
    · cases done
    · rename_i differ
      obtain ⟨dated, set, same⟩ := exists_ok_of_map done
      cases same
      have redated := Outline.redatedOn_setDates set
      have ordered : first ≤ last := by
        refine Std.not_lt.mp fun reversed => ?_
        simp [Outline.setDates, if_pos reversed] at set
      obtain ⟨_, sameSet, dates⟩ := Outline.setDates_of_known
        (Outline.exists_task?_iff.mp ⟨task, found⟩) ordered
      cases set.symm.trans sameSet
      have placed : fitted.task? id = some (task.withDates first last) := by
        rw [dates, if_pos rfl, found]
        rfl
      refine ⟨redated, fun unchanged => differ ?_, ?_⟩
      · rw [Outline.dates?_of_task? placed, Outline.dates?_of_task? found] at unchanged
        exact (Prod.mk.inj (Option.some.inj unchanged)).imp Eq.symm Eq.symm
      · have children : ∀ child, o.container child = some id → child ∉ ({id} : Set TaskId) := by
          rintro child below rfl
          exact forest.not_inside_self child (.of_container below)
        obtain ⟨starts, finishes⟩ := redated.childDates_eq children
        intro other there nested
        cases placed.symm.trans there
        rw [redated.nested] at nested
        obtain ⟨_, _, sameSpan, least, greatest⟩ := spanOfNested?_spec forest nested
        cases span.symm.trans sameSpan
        rw [starts, finishes]
        exact ⟨least, greatest⟩
  · cases done

/-! ## A round -/

theorem redatedBy_fitRound (forest : o.hierarchy.IsForest) {level : List TaskId}
    (round : fitRound level o = (fitted, .ok changed)) : o.RedatedBy changed fitted := by
  induction level generalizing o changed with
  | nil =>
    cases round
    exact .nil _
  | cons container rest ih =>
    rcases fitRound_cons_eq_ok round with ⟨-, later⟩ | ⟨next, more, refitted, later, rfl⟩
    · exact ih forest later
    · obtain ⟨turn, changes, -⟩ := isFitted_of_refit?_some forest refitted
      exact .cons turn changes (ih (turn.hierarchy ▸ forest) later)

/-- After a round, a container is off only if it was so before and is not of the round, or if it is the
container of one that the round has changed. -/
theorem off_of_fitRound (forest : o.hierarchy.IsForest) {level : List TaskId}
    (round : fitRound level o = (fitted, .ok changed)) (off : ¬ fitted.IsFitted id) :
    ¬ o.IsFitted id ∧ id ∉ level ∨ ∃ child ∈ changed, o.container child = some id := by
  induction level generalizing o changed with
  | nil =>
    cases round
    exact .inl ⟨off, List.not_mem_nil⟩
  | cons container rest ih =>
    rcases fitRound_cons_eq_ok round with ⟨same, later⟩ | ⟨next, more, refitted, later, rfl⟩
    · have isFitted := isFitted_of_refit? forest same
      refine (ih forest later).imp_left fun ⟨before, notLater⟩ => ⟨before, ?_⟩
      rw [List.mem_cons, not_or]
      exact ⟨fun here => before (here ▸ isFitted), notLater⟩
    · obtain ⟨turn, -, isFitted⟩ := isFitted_of_refit?_some forest refitted
      rcases ih (turn.hierarchy ▸ forest) later with ⟨before, notLater⟩ | ⟨child, named, above⟩
      · by_cases above : o.container container = some id
        · exact .inr ⟨container, List.mem_cons_self, above⟩
        · have apart : id ≠ container := fun here => before (here ▸ isFitted)
          have unchanged : next.IsFitted id ↔ o.IsFitted id :=
            turn.isFitted_iff apart fun child below here => above (here ▸ below)
          refine .inl ⟨unchanged.not.mp before, ?_⟩
          rw [List.mem_cons, not_or]
          exact ⟨apart, notLater⟩
      · rw [turn.container] at above
        exact .inr ⟨child, List.mem_cons_of_mem _ named, above⟩

/-! ## All rounds -/

variable {level : TaskSet}

theorem Rounds.redatedBy (rounds : Rounds level o final changed) (forest : o.hierarchy.IsForest) :
    o.RedatedBy changed final := by
  induction rounds with
  | done => exact .nil _
  | next _ round _ ih =>
    have turns := redatedBy_fitRound forest round
    exact turns.append (ih (turns.redatedOn.hierarchy ▸ forest))

/-- If all containers that are off are still to come, the rounds leave none. -/
theorem Rounds.isFitted (rounds : Rounds level o final changed) (forest : o.hierarchy.IsForest)
    (toCome : ∀ id, ¬ o.IsFitted id → id ∈ level.entries) (id : TaskId) : final.IsFitted id := by
  induction rounds with
  | done empty =>
    by_contra off
    have member := toCome id off
    rw [empty] at member
    exact List.not_mem_nil member
  | next _ round _ ih =>
    have redated := (redatedBy_fitRound forest round).redatedOn
    refine ih (redated.hierarchy ▸ forest) fun id off => ?_
    rcases off_of_fitRound forest round off with ⟨before, notInRound⟩ | ⟨child, named, above⟩
    · exact absurd (toCome id before) notInRound
    · rw [TaskSet.mem_ofList, List.mem_filterMap]
      exact ⟨child, named, (redated.container child).trans above⟩

/-- The rounds change containers of the first round, and containers around them. -/
theorem Rounds.under (rounds : Rounds level o final changed) (forest : o.hierarchy.IsForest)
    (named : id ∈ changed) : ∃ first ∈ level.entries, o.hierarchy.Under first id := by
  induction rounds with
  | done => exact absurd named List.not_mem_nil
  | next _ round _ ih =>
    rcases List.mem_append.mp named with now | later
    · exact ⟨id, (sublist_of_fitRound round).subset now, .inl rfl⟩
    · have redated := (redatedBy_fitRound forest round).redatedOn
      obtain ⟨outer, next, under⟩ := ih (redated.hierarchy ▸ forest) later
      rw [TaskSet.mem_ofList, List.mem_filterMap] at next
      obtain ⟨inner, now, above⟩ := next
      rw [redated.container] at above
      rw [redated.hierarchy] at under
      exact ⟨inner, (sublist_of_fitRound round).subset now,
        Hierarchy.Under.trans (.inr (.of_container above)) under⟩

/-- Fitting succeeds, and changes no more than the dates of the containers around the given tasks. -/
theorem fit_redates (forest : o.hierarchy.IsForest) (ordered : o.Ordered) (tasks : List TaskId) :
    ∃ final changed, fit o tasks = (final, .ok changed) ∧
      Rounds (.ofList (tasks.filterMap o.container)) o final changed ∧
      o.RedatedBy changed final ∧
      o.RedatedOn {id | ∃ task ∈ tasks, o.hierarchy.Inside task id} final := by
  obtain ⟨final, changed, done, rounds⟩ := rounds_fit forest ordered tasks
  have turns := rounds.redatedBy forest
  refine ⟨final, changed, done, rounds, turns, turns.redatedOn.mono fun id named => ?_⟩
  obtain ⟨first, inRound, under⟩ := rounds.under forest named
  rw [TaskSet.mem_ofList, List.mem_filterMap] at inRound
  obtain ⟨task, given, above⟩ := inRound
  refine ⟨task, given, Hierarchy.inside_iff.mpr ⟨first, above, ?_⟩⟩
  exact under.imp_left Eq.symm

/-- If each container that is off is the container of a given task, fitting succeeds and stops of its own
accord. Afterwards every container has the span of the tasks directly inside it, and nothing has
changed but the dates of the containers around the given tasks. -/
theorem fit_restores (forest : o.hierarchy.IsForest) (ordered : o.Ordered) {tasks : List TaskId}
    (given : ∀ id, ¬ o.IsFitted id → ∃ task ∈ tasks, o.container task = some id) :
    ∃ final changed, fit o tasks = (final, .ok changed) ∧
      Rounds (.ofList (tasks.filterMap o.container)) o final changed ∧
      (∀ id, final.IsFitted id) ∧
      o.RedatedOn {id | ∃ task ∈ tasks, o.hierarchy.Inside task id} final := by
  obtain ⟨final, changed, done, rounds, -, redated⟩ := fit_redates forest ordered tasks
  refine ⟨final, changed, done, rounds, rounds.isFitted forest fun id off => ?_, redated⟩
  rw [TaskSet.mem_ofList, List.mem_filterMap]
  exact given id off

end Bounds

namespace Sample

/-- A task in another one. -/
def twofold (dates innerDates : Span) : Except OutlineError Outline := do
  let o ← Outline.empty.add (task outer dates.start dates.finish)
  o.nest outer (task inner innerDates.start innerDates.finish)

/-- Three tasks in one another. -/
def threefold (dates innerDates innermostDates : Span) : Except OutlineError Outline := do
  let o ← twofold dates innerDates
  o.nest inner (task innermost innermostDates.start innermostDates.finish)

theorem forest_twofold {dates innerDates : Span} {o : Outline}
    (built : twofold dates innerDates = .ok o) : o.hierarchy.IsForest ∧ o.Ordered := by
  unfold twofold at built
  obtain ⟨_, top, below⟩ := exists_ok_of_bind built
  exact ⟨Outline.isForest_nest (Outline.isForest_add Outline.isForest_empty top) below,
    Outline.ordered_nest (Outline.ordered_add Outline.ordered_empty top) below⟩

theorem forest_threefold {dates innerDates innermostDates : Span} {o : Outline}
    (built : threefold dates innerDates innermostDates = .ok o) :
    o.hierarchy.IsForest ∧ o.Ordered := by
  unfold threefold at built
  obtain ⟨_, two, deepest⟩ := exists_ok_of_bind built
  obtain ⟨forest, ordered⟩ := forest_twofold two
  exact ⟨Outline.isForest_nest forest deepest, Outline.ordered_nest ordered deepest⟩

/-- Neither of the two containers has the dates of what it contains. -/
def stacked : Except OutlineError Outline :=
  threefold ⟨day 0, day 8⟩ ⟨day 2, day 4⟩ ⟨day 0, day 8⟩

end Sample

namespace Bounds

/-- The outer container comes first, and is fitted to the inner one as it was, then again. -/
theorem fit_restores_stacked : ∃ o final, Sample.stacked = .ok o ∧
    ¬ o.IsFitted Sample.outer ∧ ¬ o.IsFitted Sample.inner ∧
    fit o [Sample.inner, Sample.innermost] =
      (final, .ok [Sample.outer, Sample.inner, Sample.outer]) ∧
    final.IsFitted Sample.outer ∧ final.IsFitted Sample.inner ∧
    final.task? Sample.innermost = o.task? Sample.innermost := by
  obtain ⟨o, built⟩ : ∃ o, Sample.stacked = .ok o := ⟨_, rfl⟩
  obtain ⟨forest, ordered⟩ := Sample.forest_threefold built
  have given : ∀ id, ¬ o.IsFitted id →
      ∃ task ∈ [Sample.inner, Sample.innermost], o.container task = some id := by
    have containers : ∀ id ∈ o.ids, o.nested id ≠ [] →
        ∃ task ∈ [Sample.inner, Sample.innermost], o.container task = some id := by
      cases built
      decide
    intro id off
    have nested : o.nested id ≠ [] := fun leaf => off (Outline.isFitted_of_leaf leaf)
    exact containers id (mem_ids_of_nested nested) nested
  obtain ⟨final, changed, done, -, isFitted, redated⟩ := fit_restores forest ordered given
  have order : (fit o [Sample.inner, Sample.innermost]).2 =
      .ok [Sample.outer, Sample.inner, Sample.outer] := by
    cases built
    decide
  rw [done] at order
  cases order
  refine ⟨o, final, built, ?_, ?_, done, isFitted _, isFitted _, redated.others _ ?_⟩
  · rw [isFitted_iff forest]
    cases built
    decide
  · rw [isFitted_iff forest]
    cases built
    decide
  · rintro ⟨task, -, inside⟩
    have below := forest.mem_descendants_iff.mpr inside
    have leaf : o.hierarchy.descendants Sample.innermost = [] := by
      cases built
      decide
    rw [leaf] at below
    exact List.not_mem_nil below

end Bounds

end Workplan
