/-
# Workplan.Proofs.Settling — what a turn makes of a task, by the dates it is told

Three sets of dates decide what a pass makes of a task at its turn: those of its own strong or
violated links, those of all links that bear on it, and those of its subtasks. `Settles` says how, for
tasks without subtasks and for containers alike:

* `Turn.settles` — every turn settles its task by the dates that it finds;
* `Turn.skipped_iff` — it skips only containers, for a date that comes after their subtasks;
* `Settles.unique` — the dates leave no choice;
* `Settles.again` — a task that was settled settles where it is, if all links tell the same dates
  once more;
* `strongDates_congr`, `linkDates_congr`, `nestedDates_congr` — what the dates depend on. Of the task
  itself, links that bind its finish know only the length.
-/
import Workplan.Proofs.ContainerPlacement

namespace Workplan

set_option autoImplicit false

namespace Schedule

open Window

/-! ## Settling -/

/-- The dates that links and the earliest start ask of a task. -/
def askedDates (linked : Set Date) (task : Task) : Set Date :=
  linked ∪ {date | task.earliestStart = some date}

/-- What becomes of a task by the dates of its own strong or violated links, of all links on it, and
of its subtasks. -/
inductive Settles (cal : Calendar) (strong linked nested : Set Date) (task : Task) : Task → Prop where
  /-- Nothing is asked of a task without subtasks. -/
  | free : nested = ∅ → startDates strong linked task.start task.earliestStart = ∅ →
      Settles cal strong linked nested task task
  /-- A task without subtasks starts on the latest date. -/
  | leaf {date : Date} : nested = ∅ →
      IsGreatest (startDates strong linked task.start task.earliestStart) date →
      Settles cal strong linked nested task
        (if date = task.start then task else task.shiftTo date cal)
  /-- A container is asked to start after its subtasks, and skipped. -/
  | skipped {last date : Date} : IsGreatest nested last → date ∈ askedDates linked task →
      last < date → Settles cal strong linked nested task task
  /-- A container starts with its subtasks, or on the latest date, and ends with them. -/
  | container {first last start : Date} : IsLeast nested first → IsGreatest nested last →
      start ≤ last → IsGreatest (askedDates linked task ∪ {first}) start →
      Settles cal strong linked nested task (task.withDates start last)

section Settles

variable {cal : Calendar} {strong linked nested : Set Date} {task placed : Task}

theorem Settles.unique {other : Task} (one : Settles cal strong linked nested task placed)
    (two : Settles cal strong linked nested task other) : placed = other := by
  -- only a task without subtasks can settle as one
  have apart : ∀ {date}, nested = ∅ → ¬ IsGreatest nested date := by
    rintro date rfl greatest
    exact greatest.1
  cases one with
  | free none nothing =>
    cases two with
    | free => rfl
    | leaf _ greatest => exact absurd greatest.1 (nothing ▸ Set.notMem_empty _)
    | skipped last => exact absurd last (apart none)
    | container _ last => exact absurd last (apart none)
  | leaf none greatest =>
    cases two with
    | free _ nothing => exact absurd greatest.1 (nothing ▸ Set.notMem_empty _)
    | leaf _ other => rw [greatest_unique greatest other]
    | skipped last => exact absurd last (apart none)
    | container _ last => exact absurd last (apart none)
  | skipped last asked late =>
    cases two with
    | free none => exact absurd last (apart none)
    | leaf none => exact absurd last (apart none)
    | skipped => rfl
    | container _ other inTime greatest =>
      rw [greatest_unique last other] at late
      exact absurd late (Std.not_lt.mpr (Std.le_trans (greatest.2 (.inl asked)) inTime))
  | container first last inTime greatest =>
    cases two with
    | free none => exact absurd last (apart none)
    | leaf none => exact absurd last (apart none)
    | skipped other asked late =>
      rw [← greatest_unique last other] at late
      exact absurd late (Std.not_lt.mpr (Std.le_trans (greatest.2 (.inl asked)) inTime))
    | container other sameLast _ same =>
      rw [least_unique first other] at greatest
      rw [greatest_unique last sameLast, greatest_unique greatest same]

theorem Settles.milestone_eq (settles : Settles cal strong linked nested task placed) :
    placed.milestone = task.milestone := by
  cases settles with
  | leaf =>
    split
    · rfl
    · rfl
  | _ => rfl

/-- A task without subtasks keeps its dates or is moved as a whole. -/
theorem Settles.moved (settles : Settles cal strong linked ∅ task placed) :
    placed = task ∨ placed = task.shiftTo placed.start cal := by
  cases settles with
  | free => exact .inl rfl
  | leaf =>
    split
    · exact .inl rfl
    · exact .inr rfl
  | skipped last => exact absurd last.1 (Set.notMem_empty _)
  | container first => exact absurd first.1 (Set.notMem_empty _)

theorem startDates_eq_of_subset (within : strong ⊆ linked) (floor : Date) (earliest : Option Date) :
    startDates strong linked floor earliest =
      linked ∪ {date | earliest = some date ∨ strong = ∅ ∧ linked.Nonempty ∧ date = floor} := by
  rw [startDates, linkedDates, Set.union_eq_self_of_subset_left within]
  ext date
  simp only [Set.mem_union, Set.mem_ofPred_eq]
  tauto

/-- If the links tell the dates that they told, a task that was settled stays. Which of them are
violated may have changed with the task. -/
theorem Settles.again {violated : Set Date} (settles : Settles cal strong linked nested task placed)
    (within : strong ⊆ linked) (stillWithin : violated ⊆ linked)
    (same : placed = task → violated = strong) :
    Settles cal violated linked nested placed placed := by
  cases settles with
  | free none nothing =>
    rw [same rfl]
    exact .free none nothing
  | skipped last asked late =>
    rw [same rfl]
    exact .skipped last asked late
  | container first last inTime greatest =>
    exact .container first last inTime greatest
  | @leaf date none greatest =>
    by_cases stays : date = task.start
    · rw [if_pos stays] at same ⊢
      rw [same rfl]
      simpa [stays] using (Settles.leaf none greatest : Settles cal _ _ _ _ _)
    · rw [if_neg stays]
      rw [startDates_eq_of_subset within] at greatest
      -- the task has moved, so the date is not its old start but was asked for
      have asked : date ∈ askedDates linked task := by
        rcases greatest.1 with bound | earliest | ⟨-, -, floor⟩
        · exact .inl bound
        · exact .inr earliest
        · exact absurd floor stays
      have start : (task.shiftTo date cal).start = date := rfl
      have again : IsGreatest (startDates violated linked (task.shiftTo date cal).start
          (task.shiftTo date cal).earliestStart) date := by
        rw [startDates_eq_of_subset stillWithin]
        refine ⟨asked.imp_right .inl, ?_⟩
        rintro other (bound | earliest | ⟨-, -, rfl⟩)
        · exact greatest.2 (.inl bound)
        · exact greatest.2 (.inr (.inl earliest))
        · exact Std.le_refl _
      simpa [start] using (Settles.leaf none again : Settles cal _ _ _ _ _)

end Settles

/-! ## Turns -/

section Demands

variable {d : Demands} {S T : Set Date}

theorem settles_leaf (cal : Calendar) (strong : OpensAt d.strong S) (weak : OpensAt d.weak T)
    (leaf : d.subtaskDates = []) (task : Task) :
    Settles cal S (S ∪ T) ∅ task
      (((startWindow d task).map (placedAt cal d true task)).getD task) := by
  have opens := opensAt_startWindow strong weak leaf task
  obtain ⟨start, window⟩ := opens.exists_window
  rw [← startDates_union] at opens
  rw [window] at opens ⊢
  cases opens with
  | all nothing => exact .free rfl nothing
  | latest greatest => exact .leaf rfl greatest

/-- The window of a container either closes, because a date that is asked for comes after its subtasks,
or opens on the latest of these dates and the first of the subtasks. -/
theorem startWindow_confined (strong : OpensAt d.strong S) (weak : OpensAt d.weak T)
    (nested : d.subtaskDates ≠ []) (task : Task) :
    (startWindow d task = none ∧ ∃ date ∈ askedDates (S ∪ T) task, (covered d task).2 < date) ∨
      ∃ start, startWindow d task = some (.between start (covered d task).2) ∧
        start ≤ (covered d task).2 ∧
        IsGreatest (askedDates (S ∪ T) task ∪ {(covered d task).1}) start := by
  obtain ⟨unconfined, opens, window⟩ := exists_unconfined strong weak task
  obtain ⟨firstMember, -, bounds⟩ := covered_spec nested task
  have ordered := (bounds _ firstMember).2
  -- the floor comes no later than the subtasks, so that it never counts
  have floor : min (covered d task).1 task.start ≤ (covered d task).1 :=
    (le_min_iff.mp (Std.le_refl (min (covered d task).1 task.start))).1
  rw [if_neg nested] at window
  rcases opens.intersect_between ordered with ⟨none, date, told, late⟩ |
    ⟨start, some, inTime, greatest⟩
  · refine .inl ⟨window.trans none, date, ?_, late⟩
    rcases told with (bound | ⟨-, -, rfl⟩) | earliest
    · exact .inl bound
    · exact absurd late (Std.not_lt.mpr (Std.le_trans floor ordered))
    · exact .inr earliest
  · refine .inr ⟨start, window.trans some, inTime, ?_, ?_⟩
    · rcases greatest.1 with ((bound | ⟨-, -, rfl⟩) | earliest) | first
      · exact .inl (.inl bound)
      · exact .inr (Std.le_antisymm floor (greatest.2 (.inr rfl)))
      · exact .inl (.inr earliest)
      · exact .inr first
    · rintro date ((bound | earliest) | first)
      · exact greatest.2 (.inl (.inl (.inl bound)))
      · exact greatest.2 (.inl (.inr earliest))
      · exact greatest.2 (.inr first)

theorem settles_container (cal : Calendar) (strong : OpensAt d.strong S) (weak : OpensAt d.weak T)
    (nested : d.subtaskDates ≠ []) (task : Task) :
    Settles cal S (S ∪ T) {date | date ∈ d.subtaskDates} task
      (((startWindow d task).map (placedAt cal d false task)).getD task) := by
  obtain ⟨firstMember, lastMember, bounds⟩ := covered_spec nested task
  have last : IsGreatest {date | date ∈ d.subtaskDates} (covered d task).2 :=
    ⟨lastMember, fun date member => (bounds date member).2⟩
  rcases startWindow_confined strong weak nested task with ⟨none, date, asked, late⟩ |
    ⟨start, some, inTime, greatest⟩
  · rw [none]
    exact .skipped last asked late
  · have finish : max (covered d task).2 start = (covered d task).2 := Date.max_eq_left inTime
    have placed : placedAt cal d false task (.between start (covered d task).2) =
        task.withDates start (covered d task).2 := by
      simp [placedAt, containerAt, nested, Window.between, finish]
    rw [some, Option.map_some, Option.getD_some, placed]
    exact .container ⟨firstMember, fun date member => (bounds date member).1⟩ last inTime greatest

end Demands

/-- The dates that the subtasks of a task take. -/
def nestedDates (h : Hierarchy) (seen : Outline) (task : TaskId) : Set Date :=
  {date | ∃ id child, h.container id = some task ∧ seen.task? id = some child ∧
    (date = child.start ∨ date = child.finish)}

section Turn

variable {o final seen : Outline} {net : Network} {cal : Calendar} {report : ScheduleReport}
  {id : TaskId} {task : Task}

theorem strongDates_subset (h : Hierarchy) (seen : Outline) (cal : Calendar) (id : TaskId) :
    strongDates net seen cal id ⊆ linkDates net h seen cal id := by
  rintro date ⟨link, known, rfl, collision, found, -, asks⟩
  exact ⟨link, known, .inl rfl, collision, found, asks⟩

theorem nestedDates_leaf (forest : o.hierarchy.IsForest) (leaf : o.nested id = [])
    (seen : Outline) : nestedDates o.hierarchy seen id = ∅ := by
  refine Set.eq_empty_iff_forall_notMem.mpr ?_
  rintro date ⟨child, -, below, -, -⟩
  have nested : child ∈ o.nested id := (forest.mem_nested id child).mpr below
  rw [leaf] at nested
  contradiction

theorem nestedDates_nonempty (forest : o.hierarchy.IsForest) (same : seen.hierarchy = o.hierarchy)
    (nested : o.nested id ≠ []) : (nestedDates o.hierarchy seen id).Nonempty := by
  obtain ⟨child, inside⟩ := List.exists_mem_of_ne_nil _ nested
  have below : o.container child = some id := (forest.mem_nested id child).mp inside
  have ids : seen.ids = o.ids := congrArg Hierarchy.tasks same
  obtain ⟨placed, found⟩ := Outline.exists_task?_iff.mpr
    (ids ▸ Outline.mem_ids_of_container below : child ∈ seen.ids)
  exact ⟨placed.start, child, placed, below, found, .inl rfl⟩

/-- A turn is told the dates of the subtasks. -/
theorem nestedDates_eq (forest : o.hierarchy.IsForest) (seen : Outline) (cal : Calendar) :
    nestedDates o.hierarchy seen id =
      {date | date ∈ (demands (Flow.ofPlan o net) seen cal id).subtaskDates} :=
  Set.ext fun _ => (mem_subtaskDates forest).symm

/-- A turn settles its task by the dates that it finds. -/
theorem Turn.settles (coherent : Coherent o net)
    (turn : Turn (Flow.ofPlan o net) cal o final report id seen) (found : o.task? id = some task) :
    ∃ placed, final.task? id = some placed ∧
      Settles cal (strongDates net seen cal id) (linkDates net o.hierarchy seen cal id)
        (nestedDates o.hierarchy seen id) task placed := by
  have forest := coherent.forest
  obtain ⟨_, links, strong, weak⟩ := exists_weakDates coherent seen cal id
  refine ⟨_, turn.placed task found, ?_⟩
  rw [← links]
  have leafIff : (demands (Flow.ofPlan o net) seen cal id).subtaskDates = [] ↔ o.nested id = [] :=
    subtaskDates_eq_nil_iff forest turn.hierarchy
  by_cases leaf : o.nested id = []
  · rw [nestedDates_leaf forest leaf seen, leaf]
    exact settles_leaf cal strong weak (leafIff.mpr leaf) task
  · have isContainer : (o.nested id).isEmpty = false := by
      rw [← Bool.not_eq_true, List.isEmpty_iff]
      exact leaf
    rw [isContainer, nestedDates_eq forest seen cal]
    exact settles_container cal strong weak (leafIff.not.mpr leaf) task

/-- A turn skips its task exactly if a date that is asked for comes after all subtasks. -/
theorem Turn.skipped_iff (coherent : Coherent o net)
    (turn : Turn (Flow.ofPlan o net) cal o final report id seen) (found : o.task? id = some task) :
    id ∈ report.skipped ↔ ∃ last date, IsGreatest (nestedDates o.hierarchy seen id) last ∧
      date ∈ askedDates (linkDates net o.hierarchy seen cal id) task ∧ last < date := by
  have forest := coherent.forest
  obtain ⟨_, links, strong, weak⟩ := exists_weakDates coherent seen cal id
  rw [turn.skipped task found, ← links]
  by_cases leaf : o.nested id = []
  · have noDates : (demands (Flow.ofPlan o net) seen cal id).subtaskDates = [] :=
      (subtaskDates_eq_nil_iff forest turn.hierarchy).mpr leaf
    obtain ⟨start, window⟩ := (opensAt_startWindow strong weak noDates task).exists_window
    rw [window, nestedDates_leaf forest leaf seen]
    constructor
    · intro none
      contradiction
    · rintro ⟨last, date, greatest, -⟩
      exact absurd greatest.1 (Set.notMem_empty last)
  · have nested : (demands (Flow.ofPlan o net) seen cal id).subtaskDates ≠ [] :=
      (subtaskDates_eq_nil_iff forest turn.hierarchy).not.mpr leaf
    obtain ⟨-, lastMember, bounds⟩ := covered_spec nested task
    rw [nestedDates_eq forest seen cal]
    rcases startWindow_confined strong weak nested task with ⟨none, date, asked, late⟩ |
      ⟨start, some, inTime, greatest⟩
    · refine ⟨fun _ => ?_, fun _ => none⟩
      exact ⟨_, date, ⟨lastMember, fun _ member => (bounds _ member).2⟩, asked, late⟩
    · constructor
      · intro none
        rw [none] at some
        contradiction
      · rintro ⟨last, date, isLast, asked, late⟩
        have before : date ≤ last :=
          Std.le_trans (greatest.2 (.inl asked)) (Std.le_trans inTime (isLast.2 lastMember))
        exact absurd late (Std.not_lt.mpr before)

end Turn

/-! ## What the dates depend on -/

section Congr

variable {h : Hierarchy} {net : Network} {a b : Outline} {cal : Calendar} {id : TaskId}

theorem nestedDates_congr
    (sources : ∀ source, Precedes h net source id → a.task? source = b.task? source) :
    nestedDates h a id = nestedDates h b id := by
  ext date
  constructor
  · rintro ⟨child, placed, below, found, ends⟩
    exact ⟨child, placed, below, (sources child (.containment below)).symm.trans found, ends⟩
  · rintro ⟨child, placed, below, found, ends⟩
    exact ⟨child, placed, below, (sources child (.containment below)).trans found, ends⟩

theorem strongDates_congr
    (sources : ∀ source, Precedes h net source id → a.task? source = b.task? source)
    (own : a.task? id = b.task? id) : strongDates net a cal id = strongDates net b cal id := by
  have tests : ∀ link ∈ net.links, link.dependant = id →
      link.forward? a.span? cal = link.forward? b.span? cal := by
    rintro link member rfl
    have source := sources link.dependee (.link (Network.contains_of_mem member) (.inl rfl))
    rw [Link.forward?, Link.binding?, Outline.span?_congr source, Outline.span?_congr own]
    rfl
  ext date
  constructor
  · rintro ⟨link, member, same, collision, found, rest⟩
    exact ⟨link, member, same, collision, (tests link member same).symm.trans found, rest⟩
  · rintro ⟨link, member, same, collision, found, rest⟩
    exact ⟨link, member, same, collision, (tests link member same).trans found, rest⟩

theorem acceptable_congr (relation : Relation) (dependee : Span) (lag : Int) {own other : Span}
    (length : relation.bindsDependantFinish = true → own.length cal = other.length cal) :
    (relation.forward dependee own lag cal).acceptable =
      (relation.forward dependee other lag cal).acceptable := by
  cases binds : relation.bindsDependantFinish with
  | false =>
    rw [Relation.acceptable_of_bindsStart binds, Relation.acceptable_of_bindsStart binds]
  | true =>
    rw [Relation.acceptable_of_bindsFinish binds, Relation.acceptable_of_bindsFinish binds,
      length binds]

theorem linkDates_subset {task other : Task} (own : a.task? id = some task)
    (there : b.task? id = some other)
    (sources : ∀ source, Precedes h net source id → a.task? source = b.task? source)
    (lengths : ∀ link ∈ net.links, h.Under id link.dependant →
      link.relation.bindsDependantFinish = true →
        task.span.length cal = other.span.length cal) :
    linkDates net h a cal id ⊆ linkDates net h b cal id := by
  rintro date ⟨link, member, under, collision, found, rfl⟩
  obtain ⟨dependee, dependant, first, second, rfl⟩ := Link.forward?_eq_some_iff.mp found
  have source := sources link.dependee (.link (Network.contains_of_mem member) under)
  have same : dependant = task.span :=
    Option.some.inj (second.symm.trans (Outline.span?_of_task? own))
  refine ⟨link, member, under, link.relation.forward dependee other.span link.lag.days cal,
    Link.forward?_eq_some_iff.mpr ⟨dependee, other.span, Outline.span?_congr source ▸ first,
      Outline.span?_of_task? there, rfl⟩, ?_⟩
  have alike := acceptable_congr link.relation dependee link.lag.days (lengths link member under)
  rw [same, ← alike]
  rfl

/-- Links that bind the finish of a task know only the length of the task, and all others not even
that. -/
theorem linkDates_congr {task other : Task} (own : a.task? id = some task)
    (there : b.task? id = some other)
    (sources : ∀ source, Precedes h net source id → a.task? source = b.task? source)
    (lengths : ∀ link ∈ net.links, h.Under id link.dependant →
      link.relation.bindsDependantFinish = true →
        task.span.length cal = other.span.length cal) :
    linkDates net h a cal id = linkDates net h b cal id :=
  Set.Subset.antisymm (linkDates_subset own there sources lengths)
    (linkDates_subset there own (fun source leads => (sources source leads).symm)
      fun link member under binds => (lengths link member under binds).symm)

end Congr

end Schedule

end Workplan
