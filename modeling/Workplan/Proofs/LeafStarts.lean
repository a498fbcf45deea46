/-
# Workplan.Proofs.LeafStarts — which way a pass moves a task without subtasks

A task without subtasks starts on the latest of its `heldDates`: those that the links on it and its
earliest start ask for, and sometimes its old start. The old start counts where nothing is asked, and
where links bear on the task but none is a strong one of its own. It does not count where only the
earliest start is asked for, so there the earliest start is no bound but the start itself:

* `Passes.leaf_start` — the start is the latest of these dates, and the task is moved as a whole;
* `earlier_of_isGreatest`, `eq_earliest_of_isGreatest` — when the latest of them is an earlier one;
* `starts_earlier_iff` — a task without a strong link of its own comes earlier than it was exactly
  where no link bears on it and its earliest start lies before its old one;
* `earliest_start_pulls_back` — such a task.
-/
import Workplan.Proofs.SecondPass

namespace Workplan

set_option autoImplicit false

namespace Schedule

/-- A strong link of its own pins the task. -/
def Pinned (net : Network) (id : TaskId) : Prop :=
  ∃ link ∈ net.links, link.dependant = id ∧ link.hardness = .strong

/-- The dates that hold back the start of a task without subtasks. -/
def heldDates (pinned : Prop) (linked : Set Date) (task : Task) : Set Date :=
  askedDates linked task ∪
    {date | date = task.start ∧ (askedDates linked task = ∅ ∨ ¬ pinned ∧ linked.Nonempty)}

section Held

variable {cal : Calendar} {pinned : Prop} {strong linked : Set Date} {task placed : Task}

/-- Where something is asked, and the task is pinned or no link asks it, the old start does not
count. -/
theorem heldDates_of_asked (some : (askedDates linked task).Nonempty)
    (free : ¬ pinned → linked = ∅) : heldDates pinned linked task = askedDates linked task := by
  apply Set.union_eq_self_of_subset_right
  rintro date ⟨-, nothing | ⟨slack, bound⟩⟩
  · exact absurd nothing some.ne_empty
  · exact absurd (free slack) bound.ne_empty

/-- Where links ask a task that is not pinned, the old start counts with the rest. -/
theorem heldDates_of_slack (slack : ¬ pinned) (bound : linked.Nonempty) :
    heldDates pinned linked task =
      linked ∪ {date | task.earliestStart = some date ∨ date = task.start} := by
  ext date
  simp only [heldDates, askedDates, Set.mem_union, Set.mem_ofPred_eq]
  tauto

/-- Without a pin, the latest of these dates lies before the old start only if no link asks for one. -/
theorem earlier_of_isGreatest {date : Date} (slack : ¬ pinned)
    (greatest : IsGreatest (heldDates pinned linked task) date) (back : date < task.start) :
    linked = ∅ ∧ task.earliestStart = some date := by
  have none : linked = ∅ := by
    by_contra some
    rw [heldDates_of_slack slack (Set.nonempty_iff_ne_empty.mpr some)] at greatest
    exact Std.not_lt.mpr (greatest.2 (.inr (.inr rfl))) back
  rw [none] at greatest
  rcases greatest.1 with (bound | earliest) | ⟨same, -⟩
  · exact absurd bound (Set.notMem_empty _)
  · exact ⟨none, earliest⟩
  · exact absurd (same ▸ back) Std.lt_irrefl

/-- Where no link asks for a date, an earliest start is the only one that counts. -/
theorem eq_earliest_of_isGreatest {date earliest : Date} (none : linked = ∅)
    (told : task.earliestStart = some earliest)
    (greatest : IsGreatest (heldDates pinned linked task) date) : date = earliest := by
  rw [none, heldDates_of_asked ⟨earliest, .inr told⟩ fun _ => rfl] at greatest
  rcases greatest.1 with bound | start
  · exact absurd bound (Set.notMem_empty _)
  · exact Option.some.inj (start.symm.trans told)

/-- A task without subtasks settles on the latest of the dates that hold it back, if the dates of its
strong links pin it, and those of violated ones come no earlier than it does. -/
theorem Settles.isGreatest_start (settles : Settles cal strong linked ∅ task placed)
    (within : strong ⊆ linked) (pins : pinned → strong.Nonempty)
    (late : ¬ pinned → ∀ date ∈ strong, task.start ≤ date) :
    IsGreatest (heldDates pinned linked task) placed.start := by
  cases settles with
  | skipped last => exact absurd last.1 (Set.notMem_empty _)
  | container first => exact absurd first.1 (Set.notMem_empty _)
  | free none nothing =>
    rw [startDates_eq_of_subset within] at nothing
    have asked : askedDates linked task = ∅ := by
      refine Set.eq_empty_of_subset_empty (subset_of_subset_of_eq ?_ nothing)
      exact Set.union_subset_union_right linked fun _ earliest => .inl earliest
    refine ⟨.inr ⟨rfl, .inl asked⟩, ?_⟩
    rintro date (told | ⟨rfl, -⟩)
    · exact absurd (asked ▸ told) (Set.notMem_empty date)
    · exact Std.le_refl _
  | @leaf date none greatest =>
    have start : (if date = task.start then task else task.shiftTo date cal).start = date := by
      split
      · rename_i same
        exact same.symm
      · rfl
    rw [start]
    -- only where links bear on a task that none pins does the old start count
    by_cases held : pinned ∨ linked = ∅
    · have dates : startDates strong linked task.start task.earliestStart =
          askedDates linked task := by
        rw [startDates_eq_of_subset within]
        ext other
        have apart : ¬ (strong = ∅ ∧ linked.Nonempty ∧ other = task.start) := by
          rintro ⟨empty, some, -⟩
          rcases held with pin | none
          · exact (pins pin).ne_empty empty
          · exact some.ne_empty none
        simp [askedDates, apart]
      rw [dates] at greatest
      rwa [heldDates_of_asked ⟨date, greatest.1⟩ fun slack => held.resolve_left slack]
    · obtain ⟨slack, bound⟩ := not_or.mp held
      have some := Set.nonempty_iff_ne_empty.mpr bound
      have union : strong ∪ linked = linked := Set.union_eq_self_of_subset_left within
      have floor := isGreatest_of_floor (fun _ => greatest) (late slack) (by rwa [union])
      rwa [union, ← heldDates_of_slack slack some] at floor

end Held

section Pass

variable {o final : Outline} {net : Network} {cal : Calendar} {report : ScheduleReport}
  {id : TaskId} {task : Task}

theorem boundDates_nonempty_iff (coherent : Coherent o net)
    (same : final.hierarchy = o.hierarchy) (known : id ∈ o.ids) :
    (boundDates o final net cal id).Nonempty ↔
      ∃ link ∈ net.links, o.hierarchy.Under id link.dependant := by
  constructor
  · rintro ⟨date, link, member, under, -⟩
    exact ⟨link, member, under⟩
  · rintro ⟨link, member, under⟩
    obtain ⟨dependee, -, there, -⟩ := exists_forward? cal coherent same member known
    obtain ⟨task, found⟩ := Outline.exists_task?_iff.mpr known
    exact ⟨_, link, member, under, dependee, task.span, there, Outline.span?_of_task? found, rfl⟩

/-- After a pass, a task without subtasks starts on the latest of the dates that hold it back. -/
theorem Passes.leaf_start (coherent : Coherent o net) (ordered : o.Ordered)
    (pass : Passes (Flow.ofPlan o net) cal o.ids o final {} report)
    (found : o.task? id = some task) (leaf : o.nested id = []) :
    ∃ placed, final.task? id = some placed ∧
      (placed = task ∨ placed = task.shiftTo placed.start cal) ∧
      IsGreatest (heldDates (Pinned net id) (boundDates o final net cal id) task)
        placed.start := by
  obtain ⟨seen, placed, turn, -, placedIs, settles⟩ := pass.exists_settles coherent found
  rw [nestedDates_leaf coherent.forest leaf] at settles
  refine ⟨placed, placedIs, settles.moved, ?_⟩
  rw [← turn.linkDates_eq coherent]
  refine settles.isGreatest_start (strongDates_subset o.hierarchy seen cal id) ?_ ?_
  · rintro ⟨link, member, rfl, strong⟩
    obtain ⟨dependee, span, -, -, tested⟩ := exists_forward? cal coherent turn.hierarchy member
      (Outline.exists_task?_iff.mp ⟨task, found⟩)
    exact ⟨_, link, member, rfl, _, tested, by simp [isWeak, strong], rfl⟩
  · intro slack date told
    refine start_le_of_mem_strongDates (ordered id task found) (turn.own.trans found) ?_ told
    intro link member own strong
    exact slack ⟨link, member, own, strong⟩

/-- A pass gives a task without subtasks, and without a strong link of its own, an earlier start
exactly where no link bears on the task or on what contains it, and its earliest start lies before
its old one. Then it starts on its earliest start. -/
theorem starts_earlier_iff (coherent : Coherent o net) (ordered : o.Ordered) (cal : Calendar) :
    ∃ final report, run true o net cal = (final, .ok report) ∧
      ∀ id task, o.task? id = some task → o.nested id = [] →
        (∀ link ∈ net.links, link.dependant = id → link.hardness ≠ .strong) →
        ∃ placed, final.task? id = some placed ∧
          (placed.start < task.start ↔
            (∀ link ∈ net.links, ¬ o.hierarchy.Under id link.dependant) ∧
              ∃ earliest, task.earliestStart = some earliest ∧ earliest < task.start) ∧
          (placed.start < task.start → task.earliestStart = some placed.start) := by
  obtain ⟨final, report, done, pass⟩ := run_spec coherent cal
  refine ⟨final, report, done, fun id task found leaf noneStrong => ?_⟩
  obtain ⟨placed, placedIs, -, greatest⟩ := pass.leaf_start coherent ordered found leaf
  have slack : ¬ Pinned net id := fun ⟨link, member, own, strong⟩ =>
    noneStrong link member own strong
  have bears : (boundDates o final net cal id).Nonempty ↔
      ∃ link ∈ net.links, o.hierarchy.Under id link.dependant :=
    boundDates_nonempty_iff coherent pass.redated.hierarchy
      (Outline.exists_task?_iff.mp ⟨task, found⟩)
  refine ⟨placed, placedIs, ⟨fun back => ?_, ?_⟩, fun back => ?_⟩
  · obtain ⟨none, earliest⟩ := earlier_of_isGreatest slack greatest back
    refine ⟨fun link member under => ?_, placed.start, earliest, back⟩
    exact (bears.mpr ⟨link, member, under⟩).ne_empty none
  · rintro ⟨free, earliest, told, before⟩
    have none : boundDates o final net cal id = ∅ := by
      refine Set.not_nonempty_iff_eq_empty.mp fun some => ?_
      obtain ⟨link, member, under⟩ := bears.mp some
      exact free link member under
    rwa [eq_earliest_of_isGreatest none told greatest]
  · exact (earlier_of_isGreatest slack greatest back).2

end Pass

end Schedule

namespace Sample

/-! ## A task that may start before it does -/

/-- A task with an earliest start three days before its start. -/
def eager : Except OutlineError Outline :=
  Outline.empty.add { task other (day 5) (day 8) with earliestStart := some (day 2) }

end Sample

namespace Schedule

/-- The inner task, whose only link is that of its container, comes no earlier. -/
theorem starts_earlier_iff_in_container : ∃ o final report placed, Sample.outline = .ok o ∧
    run true o Sample.network .everyDay = (final, .ok report) ∧
    final.task? Sample.inner = some placed ∧ ¬ placed.start < Sample.first := by
  obtain ⟨o, built⟩ : ∃ o, Sample.outline = .ok o := ⟨_, rfl⟩
  obtain ⟨coherent, ordered⟩ := Sample.coherent_outline built
  obtain ⟨final, report, done, spec⟩ := starts_earlier_iff coherent ordered .everyDay
  obtain ⟨placed, placedIs, earlier, -⟩ := spec Sample.inner
    (Sample.task Sample.inner Sample.first Sample.last) (by cases built; decide)
    (by cases built; decide) (by decide)
  refine ⟨o, final, report, placed, built, done, placedIs, fun back => ?_⟩
  obtain ⟨-, earliest, none, -⟩ := earlier.mp back
  contradiction

/-- No link bears on the task, and still the pass pulls it back, to its earliest start. -/
theorem earliest_start_pulls_back : ∃ o final report task placed, Sample.eager = .ok o ∧
    Coherent o (.empty {}) ∧ o.Ordered ∧ Calendar.everyDay.Steady ∧
    run true o (.empty {}) .everyDay = (final, .ok report) ∧
    o.task? Sample.other = some task ∧ o.nested Sample.other = [] ∧
    final.task? Sample.other = some placed ∧ placed.start < task.start := by
  obtain ⟨o, built⟩ : ∃ o, Sample.eager = .ok o := ⟨_, rfl⟩
  have coherent : Coherent o (.empty {}) := (coherent_empty {}).add_task built
  have ordered : o.Ordered := Outline.ordered_add Outline.ordered_empty built
  cases built
  exact ⟨_, _, _, _, _, rfl, coherent, ordered, Calendar.steady_everyDay, rfl, rfl, rfl, rfl,
    by decide⟩

end Schedule

end Workplan
