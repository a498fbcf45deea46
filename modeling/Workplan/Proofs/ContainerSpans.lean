/-
# Workplan.Proofs.ContainerSpans — the span that a pass gives a container

A container that is not skipped ends with the last of its subtasks, whatever is asked of it. Its start
is another matter: a date that it is asked for may come after the start of its first subtask, and then
the container starts on that date, inside the span that it should cover.

* `Passes.container_start` — it starts on the latest of the dates that are asked for and the first of
  its subtasks;
* `Passes.inTime_of_kept` — what is not skipped starts no earlier than any link on it tells, so a
  subtask keeps the dates that links ask of the container, if they bind starts;
* `container_span_spec` — then only an earliest start of its own keeps a container from starting with
  its first subtask;
* `containers_start_inside` — with an earliest start, with a subtask that is skipped, or as a
  milestone whose finish a link binds, a container does start inside its span.
-/
import Workplan.Proofs.SecondPass

namespace Workplan

set_option autoImplicit false

namespace Schedule

section Ends

variable {o : Outline} {id : TaskId} {date : Date}

/-- Where no task ends before it starts, the first date of all is a start. -/
theorem isLeast_childStarts (ordered : o.Ordered)
    (least : IsLeast (nestedDates o.hierarchy o id) date) : IsLeast (o.childStarts id) date := by
  constructor
  · obtain ⟨child, task, below, found, ends⟩ := least.1
    have begun : task.start ≤ date := by
      rcases ends with rfl | rfl
      · exact Std.le_refl _
      · exact ordered child task found
    have first : date ≤ task.start := least.2 ⟨child, task, below, found, .inl rfl⟩
    exact ⟨child, task, below, found, Std.le_antisymm first begun⟩
  · rintro _ ⟨child, task, below, found, rfl⟩
    exact least.2 ⟨child, task, below, found, .inl rfl⟩

/-- And the last one is an end. -/
theorem isGreatest_childFinishes (ordered : o.Ordered)
    (greatest : IsGreatest (nestedDates o.hierarchy o id) date) :
    IsGreatest (o.childFinishes id) date := by
  constructor
  · obtain ⟨child, task, below, found, ends⟩ := greatest.1
    have goesOn : date ≤ task.finish := by
      rcases ends with rfl | rfl
      · exact ordered child task found
      · exact Std.le_refl _
    have last : task.finish ≤ date := greatest.2 ⟨child, task, below, found, .inr rfl⟩
    exact ⟨child, task, below, found, Std.le_antisymm goesOn last⟩
  · rintro _ ⟨child, task, below, found, rfl⟩
    exact greatest.2 ⟨child, task, below, found, .inr rfl⟩

end Ends

section Pass

variable {o final : Outline} {net : Network} {cal : Calendar} {report : ScheduleReport}
  {id : TaskId} {task : Task}

/-- A container that a pass does not skip spans its subtasks, but for the start, which is the latest
of the dates that are asked for and the first of the subtasks. -/
theorem Passes.container_start (coherent : Coherent o net)
    (pass : Passes (Flow.ofPlan o net) cal o.ids o final {} report)
    (found : o.task? id = some task) (nested : o.nested id ≠ []) (kept : id ∉ report.skipped) :
    ∃ placed first, final.task? id = some placed ∧ placed.milestone = task.milestone ∧
      IsLeast (nestedDates final.hierarchy final id) first ∧
      IsGreatest (nestedDates final.hierarchy final id) placed.finish ∧
      IsGreatest (askedDates (boundDates o final net cal id) task ∪ {first}) placed.start := by
  obtain ⟨seen, placed, turn, sources, placedIs, settles⟩ := pass.exists_settles coherent found
  have noneLate := (turn.skipped_iff coherent found).not.mp kept
  have milestone := settles.milestone_eq
  rw [turn.linkDates_eq coherent, nestedDates_congr sources] at settles noneLate
  have some := nestedDates_nonempty coherent.forest pass.redated.hierarchy nested
  rw [pass.redated.hierarchy]
  cases settles with
  | free none => exact absurd none some.ne_empty
  | leaf none => exact absurd none some.ne_empty
  | skipped last asked late => exact absurd ⟨_, _, last, asked, late⟩ noneLate
  | container first last _ greatest => exact ⟨_, _, placedIs, milestone, first, last, greatest⟩

/-- What a pass does not skip starts no earlier than the links on it tell. -/
theorem Passes.inTime_of_kept (coherent : Coherent o net)
    (pass : Passes (Flow.ofPlan o net) cal o.ids o final {} report) (known : id ∈ o.ids)
    (kept : id ∉ report.skipped) : InTime o final net cal report id := by
  obtain ⟨task, found⟩ := Outline.exists_task?_iff.mpr known
  by_cases leaf : o.nested id = []
  · obtain ⟨seen, turn⟩ := pass.turn id known
    obtain ⟨-, placed, weak, placedIs, bounds, -, latest⟩ := turn.leaf coherent found leaf
    refine ⟨kept, placed, placedIs, fun date told => ?_⟩
    rw [← bounds] at told
    exact (latest ⟨date, .inl (.inl told)⟩).2 (.inl (.inl told))
  · obtain ⟨placed, first, placedIs, -, -, -, greatest⟩ :=
      pass.container_start coherent found leaf kept
    exact ⟨kept, placed, placedIs, fun date told => greatest.2 (.inl (.inl told))⟩

/-- If all links on a container bind starts and no subtask of it is skipped, the subtasks keep what the
links ask of the container. -/
theorem Passes.bound_le_first (coherent : Coherent o net)
    (pass : Passes (Flow.ofPlan o net) cal o.ids o final {} report)
    (binds : ∀ link ∈ net.links, o.hierarchy.Under id link.dependant →
      link.relation.bindsDependantFinish = false)
    (kept : ∀ child, o.container child = some id → child ∉ report.skipped) {first : Date}
    (isFirst : first ∈ final.childStarts id) :
    ∀ date ∈ boundDates o final net cal id, date ≤ first := by
  intro date told
  obtain ⟨child, subtask, below, found, rfl⟩ := isFirst
  have inside : o.container child = some id :=
    (congrFun (congrArg Hierarchy.container pass.redated.hierarchy) child).symm.trans below
  have known := Outline.mem_ids_of_container inside
  obtain ⟨-, _, there, late⟩ := pass.inTime_of_kept coherent known (kept child inside)
  cases there.symm.trans found
  exact late date (boundDates_subset binds (.inr (.of_container inside)) known told)

/-- A container that a pass does not skip ends with the last of its subtasks, and starts no earlier
than the first. If it is not elastic, its start is the latest of the start of the first subtask, its
own earliest start, and the dates that links ask of it. If moreover these links all bind starts, and no
subtask is skipped, only its earliest start lets it start later than the first subtask. -/
theorem container_span_spec (coherent : Coherent o net) (ordered : o.Ordered) (cal : Calendar) :
    ∃ final report, run true o net cal = (final, .ok report) ∧
      ∀ id task, o.task? id = some task → o.nested id ≠ [] → id ∉ report.skipped →
        ∃ placed first, final.task? id = some placed ∧
          IsLeast (final.childStarts id) first ∧
          IsGreatest (final.childFinishes id) placed.finish ∧
          first ≤ placed.start ∧
          (¬ Elastic o net id →
            IsGreatest (askedDates (linkDates net final.hierarchy final cal id) task ∪ {first})
              placed.start) ∧
          ((∀ link ∈ net.links, o.hierarchy.Under id link.dependant →
              link.relation = .finishStart ∨ link.relation = .startStart) →
            (∀ child, o.container child = some id → child ∉ report.skipped) →
            IsGreatest ({first} ∪ {date | task.earliestStart = some date}) placed.start) := by
  obtain ⟨final, report, done, pass⟩ := run_spec coherent cal
  refine ⟨final, report, done, fun id task found nested kept => ?_⟩
  obtain ⟨placed, first, placedIs, milestone, least, last, greatest⟩ :=
    pass.container_start coherent found nested kept
  have inOrder := pass.redated.ordered ordered
  have isFirst := isLeast_childStarts inOrder least
  have notBefore : first ≤ placed.start := greatest.2 (.inr rfl)
  refine ⟨placed, first, placedIs, isFirst, isGreatest_childFinishes inOrder last, notBefore,
    fun firm => ?_, fun startLinks childrenKept => ?_⟩
  -- the turn measured the container as it was, but of a firm one no link asks for the length
  · obtain ⟨seen, turn⟩ := pass.turn id (Outline.exists_task?_iff.mp ⟨task, found⟩)
    rw [← turn.linkDates_eq coherent, linkDates_congr (turn.own.trans found) placedIs
      (fun source arrow => turn.source coherent arrow) fun link member under binds =>
        length_eq_of_firm coherent.forest found nested firm milestone member under binds] at greatest
    rwa [pass.redated.hierarchy]
  · have binds : ∀ link ∈ net.links, o.hierarchy.Under id link.dependant →
        link.relation.bindsDependantFinish = false := by
      intro link member under
      rcases startLinks link member under with same | same <;> rw [same] <;> rfl
    have early := pass.bound_le_first coherent binds childrenKept isFirst.1
    constructor
    · rcases greatest.1 with (bound | earliest) | same
      · exact .inl (Std.le_antisymm (early _ bound) notBefore)
      · exact .inr earliest
      · exact .inl same
    · rintro date (rfl | earliest)
      · exact notBefore
      · exact greatest.2 (.inl (.inr earliest))

end Pass

/-- The outer task moves with the inner one. -/
theorem container_span_spec_for_one : ∃ o final report placed, Sample.outline = .ok o ∧
    run true o Sample.network .everyDay = (final, .ok report) ∧
    final.task? Sample.outer = some placed ∧
    IsLeast (final.childStarts Sample.outer) placed.start ∧
    IsGreatest (final.childFinishes Sample.outer) placed.finish := by
  obtain ⟨o, built⟩ : ∃ o, Sample.outline = .ok o := ⟨_, rfl⟩
  obtain ⟨coherent, ordered⟩ := Sample.coherent_outline built
  obtain ⟨final, report, done, spec⟩ := container_span_spec coherent ordered .everyDay
  have noneSkipped : (run true o Sample.network .everyDay).2.toOption.map
      ScheduleReport.skipped = some [] := by
    cases built
    decide
  rw [done] at noneSkipped
  have kept : ∀ id, id ∉ report.skipped := fun id skipped =>
    List.not_mem_nil (Option.some.inj noneSkipped ▸ skipped)
  obtain ⟨placed, first, placedIs, isFirst, isLast, -, -, free⟩ := spec Sample.outer
    (Sample.task Sample.outer Sample.first Sample.last) (by cases built; decide)
    (by cases built; decide) (kept _)
  have startLinks : ∀ link ∈ Sample.network.links, link.relation = .finishStart := by decide
  have latest := free (fun link member _ => .inl (startLinks link member)) fun child _ => kept child
  rcases latest.1 with start | earliest
  · exact ⟨o, final, report, placed, built, done, placedIs, start ▸ isFirst, isLast⟩
  · contradiction

end Schedule

namespace Sample

/-! ## Containers that start inside their spans -/

/-- The outer task waits for a date, the inner one in it does not. -/
def reserved : Except OutlineError Outline := do
  let o ← Outline.empty.add { task outer (day 0) (day 4) with earliestStart := some (day 2) }
  o.nest outer (task inner (day 0) (day 4))

/-- The inner task waits for a date after all that lies in it, so that a pass skips it. -/
def layered : Except OutlineError Outline := do
  let o ← Outline.empty.add (task other (day 0) (day 5))
  let o ← o.add (task outer (day 0) (day 8))
  let o ← o.nest outer { task inner (day 0) (day 8) with earliestStart := some (day 9) }
  o.nest inner (task innermost (day 0) (day 2))

/-- The outer task is a milestone. -/
def due : Except OutlineError Outline := do
  let o ← Outline.empty.add (task other (day 0) (day 3))
  let o ← o.add { task outer (day 0) (day 0) with milestone := true }
  o.nest outer (task inner (day 0) (day 4))

theorem coherent_reserved {o : Outline} (built : reserved = .ok o) :
    Coherent o (.empty {}) ∧ o.Ordered := by
  unfold reserved at built
  obtain ⟨_, top, below⟩ := exists_ok_of_bind built
  exact ⟨((coherent_empty {}).add_task top).nest below,
    Outline.ordered_nest (Outline.ordered_add Outline.ordered_empty top) below⟩

theorem coherent_layered {o : Outline} (built : layered = .ok o) :
    Coherent o network ∧ o.Ordered := by
  unfold layered at built
  obtain ⟨_, alone, rest⟩ := exists_ok_of_bind built
  obtain ⟨_, top, rest⟩ := exists_ok_of_bind rest
  obtain ⟨_, below, deepest⟩ := exists_ok_of_bind rest
  have coherent := ((((coherent_empty {}).add_task alone).add_task top).nest below).nest deepest
  have ordered := Outline.ordered_add (Outline.ordered_add Outline.ordered_empty alone) top
  refine ⟨coherent.insertLink ?_ ?_ ?_,
    Outline.ordered_nest (Outline.ordered_nest ordered below) deepest⟩ <;>
    cases built <;> decide

theorem coherent_due {o : Outline} (built : due = .ok o) : Coherent o finishing ∧ o.Ordered := by
  unfold due at built
  obtain ⟨_, alone, rest⟩ := exists_ok_of_bind built
  obtain ⟨_, top, below⟩ := exists_ok_of_bind rest
  have coherent := (((coherent_empty {}).add_task alone).add_task top).nest below
  have ordered := Outline.ordered_add (Outline.ordered_add Outline.ordered_empty alone) top
  refine ⟨coherent.insertLink ?_ ?_ ?_, Outline.ordered_nest ordered below⟩ <;>
    cases built <;> decide

end Sample

namespace Schedule

/-- A container that the pass does not skip starts after a task directly inside it. -/
def StartsInside (o : Outline) (net : Network) (cal : Calendar) : Prop :=
  ∃ final report id placed, run true o net cal = (final, .ok report) ∧ id ∉ report.skipped ∧
    final.task? id = some placed ∧ ∃ date ∈ final.childStarts id, date < placed.start

/-- An earliest start of its own, a subtask that is skipped, or, for a milestone, a link that binds
the finish: each of them makes a container start inside its span. -/
theorem containers_start_inside :
    (∃ o, Sample.reserved = .ok o ∧ Coherent o (.empty {}) ∧ o.Ordered ∧
      StartsInside o (.empty {}) .everyDay) ∧
    (∃ o, Sample.layered = .ok o ∧ Coherent o Sample.network ∧ o.Ordered ∧
      StartsInside o Sample.network .everyDay) ∧
    ∃ o, Sample.due = .ok o ∧ Coherent o Sample.finishing ∧ o.Ordered ∧
      StartsInside o Sample.finishing .everyDay := by
  refine ⟨?_, ?_, ?_⟩
  · obtain ⟨o, built⟩ : ∃ o, Sample.reserved = .ok o := ⟨_, rfl⟩
    obtain ⟨coherent, ordered⟩ := Sample.coherent_reserved built
    cases built
    exact ⟨_, rfl, coherent, ordered, _, _, Sample.outer, _, rfl, by decide, rfl, _,
      ⟨Sample.inner, _, rfl, rfl, rfl⟩, by decide⟩
  · obtain ⟨o, built⟩ : ∃ o, Sample.layered = .ok o := ⟨_, rfl⟩
    obtain ⟨coherent, ordered⟩ := Sample.coherent_layered built
    cases built
    exact ⟨_, rfl, coherent, ordered, _, _, Sample.outer, _, rfl, by decide, rfl, _,
      ⟨Sample.inner, _, rfl, rfl, rfl⟩, by decide⟩
  · obtain ⟨o, built⟩ : ∃ o, Sample.due = .ok o := ⟨_, rfl⟩
    obtain ⟨coherent, ordered⟩ := Sample.coherent_due built
    cases built
    exact ⟨_, rfl, coherent, ordered, _, _, Sample.outer, _, rfl, by decide, rfl, _,
      ⟨Sample.inner, _, rfl, rfl, rfl⟩, by decide⟩

end Schedule

end Workplan
