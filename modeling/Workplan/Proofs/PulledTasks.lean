/-
# Workplan.Proofs.PulledTasks — what pulling moves and what it leaves behind

Pulling takes the tasks directly inside a container one after the other. Each move is settled by the
task's own dates and by those that the container had at first, so their order makes no difference but to
the report: it is as if all moved at once. Afterwards the containers of the tasks that moved are fitted,
from the container outwards. Nothing goes inwards:

* `nestedByStart_perm` — the tasks that are taken are those directly inside the container, once each;
* `pullAll_turn`, `pullAll_spec` — one of them, and one after the other, on any list;
* `pullIn_spec` — all of it: which tasks move, where to, and what else may get other dates;
* `pullIn_fitted_iff` — inside the container, just the containers that have moved come off the tasks inside
  them, which stay where they were;
* `pullIn_leaves_behind` — an inner container that has left its only subtask.
-/
import Workplan.Proofs.FittedContainers

namespace Workplan

set_option autoImplicit false

namespace Bounds

variable {o : Outline} {first last : Date} {cal : Calendar} {container : TaskId}

/-! ## One task after the other -/

/-- A task as pulling leaves it. -/
def pulled (task : Task) (first last : Date) (cal : Calendar) : Task :=
  if pulledStart task first last cal = task.start then task
  else task.shiftTo (pulledStart task first last cal) cal

theorem pulled_of_moves {task : Task} (moves : pulledStart task first last cal ≠ task.start) :
    pulled task first last cal = task.shiftTo (pulledStart task first last cal) cal :=
  if_neg moves

theorem pulled_of_stays {task : Task} (stays : pulledStart task first last cal = task.start) :
    pulled task first last cal = task :=
  if_pos stays

theorem pulled_ordered {task : Task} (ordered : task.start ≤ task.finish) :
    (pulled task first last cal).start ≤ (pulled task first last cal).finish := by
  unfold pulled
  split
  · exact ordered
  · exact task.shiftTo_ordered _ cal

@[simp] theorem pulled_start (task : Task) :
    (pulled task first last cal).start = pulledStart task first last cal := by
  unfold pulled
  split
  · rename_i same
    exact same.symm
  · rfl

theorem map_id_filterMap_task? {list : List TaskId} (known : ∀ id ∈ list, id ∈ o.ids) :
    (list.filterMap o.task?).map Task.id = list := by
  induction list with
  | nil => rfl
  | cons id rest ih =>
    obtain ⟨task, found⟩ := Outline.exists_task?_iff.mpr (known id List.mem_cons_self)
    rw [List.filterMap_cons_some found, List.map_cons, Outline.id_of_task? found,
      ih fun id later => known id (List.mem_cons_of_mem _ later)]

/-- The tasks directly inside a container, in another order. -/
theorem nestedByStart_perm (forest : o.hierarchy.IsForest) (container : TaskId) :
    (nestedByStart o container).Perm (o.nested container) := by
  have known : ∀ id ∈ o.nested container, id ∈ o.ids := fun id nested =>
    Outline.mem_ids_of_container ((forest.mem_nested container id).mp nested)
  have sorted := (List.mergeSort_perm ((o.nested container).filterMap o.task?)
    fun a b => a.start ≤ b.start).map Task.id
  rwa [map_id_filterMap_task? known] at sorted

theorem nestedByStart_single (forest : o.hierarchy.IsForest) {id : TaskId}
    (only : o.nested container = [id]) : nestedByStart o container = [id] := by
  have order := nestedByStart_perm forest container
  rwa [only, List.perm_singleton] at order

/-- The turn of one task: nothing but the task itself gets other dates, and it does if it would get another
start. -/
theorem pullAll_turn (first last : Date) (cal : Calendar) (head : TaskId) (rest : List TaskId)
    (o : Outline) :
    ∃ next turn, pullAll first last cal (head :: rest) o =
        ((pullAll first last cal rest next).1,
          (pullAll first last cal rest next).2.map (turn ++ ·)) ∧
      turn.Sublist [head] ∧ o.RedatedOn {id | id ∈ turn} next ∧
      ∀ task, o.task? head = some task →
        next.task? head = some (pulled task first last cal) ∧
        (head ∈ turn ↔ pulledStart task first last cal ≠ task.start) := by
  have nothing : ∀ answer : Except OutlineError (List TaskId), answer = answer.map ([] ++ ·) := by
    intro answer
    cases answer <;> rfl
  simp only [pullAll]
  split
  · rename_i unknown
    refine ⟨o, [], Prod.ext rfl (nothing _), List.nil_sublist _, .refl o _, fun task found => ?_⟩
    exact absurd (unknown.symm.trans found) nofun
  · rename_i task found
    split
    · rename_i same
      refine ⟨o, [], Prod.ext rfl (nothing _), List.nil_sublist _, .refl o _, fun other there => ?_⟩
      cases found.symm.trans there
      rw [pulled_of_stays same]
      exact ⟨found, fun named => absurd named List.not_mem_nil, fun moves => absurd same moves⟩
    · rename_i moves
      obtain ⟨shifted, shift, dates⟩ := Outline.shift_of_known
        (Outline.exists_task?_iff.mp ⟨task, found⟩) (pulledStart task first last cal) cal
      have redated : o.RedatedOn {id | id ∈ [head]} shifted :=
        (Outline.redatedOn_shift shift).mono fun _ same => List.mem_singleton.mpr same
      refine ⟨shifted, [head], ?_, List.Sublist.refl _, redated, fun other there => ?_⟩
      · rw [shift]
        rfl
      · cases found.symm.trans there
        rw [dates, if_pos rfl, found, pulled_of_moves moves]
        exact ⟨rfl, fun _ => moves, fun _ => List.mem_singleton_self head⟩

/-- Those of the listed tasks move that would get another start, and no other task does. -/
theorem pullAll_spec (first last : Date) (cal : Calendar) {list : List TaskId}
    (distinct : list.Nodup) (o : Outline) :
    ∃ final moved, pullAll first last cal list o = (final, .ok moved) ∧
      moved.Sublist list ∧ o.RedatedOn {id | id ∈ moved} final ∧
      ∀ id ∈ list, ∀ task, o.task? id = some task →
        final.task? id = some (pulled task first last cal) ∧
        (id ∈ moved ↔ pulledStart task first last cal ≠ task.start) := by
  induction list generalizing o with
  | nil => exact ⟨o, [], rfl, .slnil, .refl o _, fun _ absent => absurd absent List.not_mem_nil⟩
  | cons head rest ih =>
    obtain ⟨fresh, distinct⟩ := List.nodup_cons.mp distinct
    obtain ⟨next, turn, run, one, redated, own⟩ := pullAll_turn first last cal head rest o
    obtain ⟨final, moved, done, part, later, each⟩ := ih distinct next
    have inTurn := redated.mono fun _ named => List.mem_append_left moved named
    have afterwards := later.mono fun _ named => List.mem_append_right turn named
    refine ⟨final, turn ++ moved, ?_, one.append part, inTurn.trans afterwards, ?_⟩
    · rw [run, done]
      rfl
    intro id listed task found
    rw [List.mem_append]
    rcases List.mem_cons.mp listed with rfl | inRest
    · -- the others do not touch it when its turn is over
      have absent : id ∉ moved := fun named => fresh (part.subset named)
      obtain ⟨placed, named⟩ := own task found
      rw [later.others id absent, or_iff_left absent]
      exact ⟨placed, named⟩
    · have before : id ∉ turn := fun named =>
        fresh (List.mem_singleton.mp (one.subset named) ▸ inRest)
      rw [or_iff_right before]
      exact each id inRest task ((redated.others id before).trans found)

/-! ## Pulling -/

/-- Pulling succeeds. The tasks that move lie directly inside the container, each is reported once, and
all that gets other dates besides is the container and those around it. -/
theorem pullIn_spec (forest : o.hierarchy.IsForest) (ordered : o.Ordered) {outer : Task}
    (found : o.task? container = some outer) (cal : Calendar) :
    ∃ final moved, pullIn o container cal = (final, .ok moved) ∧ moved.Nodup ∧
      (∀ id ∈ moved, o.container id = some container) ∧
      o.RedatedOn {id | id ∈ moved ∨ o.hierarchy.Under container id} final ∧
      ∀ id task, o.container id = some container → o.task? id = some task →
        final.task? id = some (pulled task outer.start outer.finish cal) ∧
        (id ∈ moved ↔ pulledStart task outer.start outer.finish cal ≠ task.start) := by
  have order := nestedByStart_perm forest container
  have distinct := order.nodup_iff.mpr (forest.nodup_nested container)
  have taken : ∀ id, id ∈ nestedByStart o container ↔ o.container id = some container :=
    fun id => order.mem_iff.trans (forest.mem_nested container id)
  obtain ⟨next, moved, pulls, part, redated, each⟩ :=
    pullAll_spec outer.start outer.finish cal distinct o
  have inside : ∀ id ∈ moved, o.container id = some container :=
    fun id named => (taken id).mp (part.subset named)
  obtain ⟨final, changed, fits, -, -, refitted⟩ :=
    fit_redates (redated.hierarchy ▸ forest) (redated.ordered ordered) moved
  have outwards : ∀ id, (∃ task ∈ moved, next.hierarchy.Inside task id) →
      o.hierarchy.Under container id := by
    rintro id ⟨task, named, above⟩
    rw [redated.hierarchy, Hierarchy.inside_iff] at above
    obtain ⟨direct, found, above⟩ := above
    cases (inside task named).symm.trans found
    exact above.imp_left Eq.symm
  refine ⟨final, moved, ?_, part.nodup distinct, inside, ?_, fun id task below there => ?_⟩
  · simp only [pullIn, found, pulls, fits]
    rfl
  · exact (redated.mono fun _ named => .inl named).trans
      (refitted.mono fun id above => .inr (outwards id above))
  · obtain ⟨placed, named⟩ := each id ((taken id).mpr below) task there
    refine ⟨?_, named⟩
    rw [refitted.others id fun above => ?_, placed]
    -- fitting goes outwards from the container, and the task lies inside it
    have within : o.hierarchy.Inside id container := .of_container below
    rcases outwards id above with rfl | around
    · exact forest.not_inside_self _ within
    · exact forest.not_inside_self id (within.trans around)

/-- If all inside a container are fitted, then after pulling just those are off that have moved and have
others inside. -/
theorem pullIn_fitted_iff (forest : o.hierarchy.IsForest) (ordered : o.Ordered)
    (container : TaskId) (cal : Calendar)
    (fitted : ∀ id, o.hierarchy.Inside id container → o.IsFitted id) :
    ∃ final moved, pullIn o container cal = (final, .ok moved) ∧
      (∀ id ∈ moved, o.container id = some container) ∧
      ∀ id, o.hierarchy.Inside id container →
        (final.IsFitted id ↔ id ∉ moved ∨ o.nested id = []) := by
  cases found : o.task? container with
  | none =>
    refine ⟨o, [], by simp only [pullIn, found], nofun, fun id inside => ?_⟩
    exact ⟨fun _ => .inl List.not_mem_nil, fun _ => fitted id inside⟩
  | some outer =>
    obtain ⟨final, moved, done, -, direct, redated, each⟩ :=
      pullIn_spec forest ordered found cal
    refine ⟨final, moved, done, direct, fun id inside => ?_⟩
    -- none of those inside a task inside the container has other dates
    have children : ∀ child, o.container child = some id →
        child ∉ {id | id ∈ moved ∨ o.hierarchy.Under container id} := by
      intro child below changed
      have within : o.hierarchy.Inside child id := .of_container below
      rcases changed with named | rfl | around
      · cases (direct child named).symm.trans below
        exact forest.not_inside_self _ inside
      · exact forest.not_inside_self _ (within.trans inside)
      · exact forest.not_inside_self child ((within.trans inside).trans around)
    by_cases leaf : o.nested id = []
    · have leafStill : final.nested id = [] := (redated.nested id).trans leaf
      exact iff_of_true (Outline.isFitted_of_leaf leafStill) (.inr leaf)
    rw [or_iff_left leaf]
    constructor
    · intro still named
      have below := direct id named
      obtain ⟨task, there⟩ := Outline.exists_task?_iff.mpr (Outline.mem_ids_of_container below)
      obtain ⟨placed, moves⟩ := each id task below there
      obtain ⟨starts, -⟩ := redated.childDates_eq children
      have before := (fitted id inside task there leaf).1
      have after := (still _ placed (redated.nested id ▸ leaf)).1
      rw [starts, pulled_start] at after
      exact moves.mp named (Window.least_unique after before)
    · intro unmoved
      refine (redated.isFitted_iff ?_ children).mpr (fitted id inside)
      rintro (named | rfl | around)
      · exact unmoved named
      · exact forest.not_inside_self _ inside
      · exact forest.not_inside_self id (inside.trans around)

end Bounds

namespace Sample

/-- A container that starts late, and tasks inside it that start early. -/
def early : Except OutlineError Outline :=
  threefold ⟨day 5, day 10⟩ ⟨day 1, day 4⟩ ⟨day 1, day 4⟩

theorem isFitted_early {o : Outline} (built : early = .ok o) (id : TaskId)
    (inside : o.hierarchy.Inside id outer) : o.IsFitted id := by
  obtain ⟨forest, -⟩ := forest_threefold built
  have all : ∀ id ∈ o.hierarchy.descendants outer,
      o.nested id = [] ∨ Bounds.spanOfNested? o id = o.dates? id := by
    cases built
    decide
  exact (Bounds.isFitted_iff forest).mpr (all id (forest.mem_descendants_iff.mpr inside))

theorem pullIn_early {o : Outline} (built : early = .ok o) :
    ∃ final, Bounds.pullIn o outer .everyDay = (final, .ok [inner]) ∧
      final.nested inner = [innermost] ∧ final.dates? inner = some (day 5, day 8) ∧
      Bounds.spanOfNested? final inner = some (day 1, day 4) := by
  obtain ⟨forest, -⟩ := forest_threefold built
  have only : o.nested outer = [inner] := by
    cases built
    decide
  have order := Bounds.nestedByStart_single forest only
  cases built
  simp only [Bounds.pullIn, order]
  exact ⟨_, rfl, by decide, by decide, by decide⟩

end Sample

namespace Bounds

/-- The inner container moves and comes off the task inside it, which has no others inside. -/
theorem pullIn_fitted_iff_early : ∃ o final, Sample.early = .ok o ∧
    (∀ id, o.hierarchy.Inside id Sample.outer → o.IsFitted id) ∧
    pullIn o Sample.outer .everyDay = (final, .ok [Sample.inner]) ∧
    ¬ final.IsFitted Sample.inner ∧ final.IsFitted Sample.innermost := by
  obtain ⟨o, built⟩ : ∃ o, Sample.early = .ok o := ⟨_, rfl⟩
  obtain ⟨forest, ordered⟩ := Sample.forest_threefold built
  have before := Sample.isFitted_early built
  obtain ⟨final, moved, done, -, after⟩ :=
    pullIn_fitted_iff forest ordered Sample.outer .everyDay before
  obtain ⟨_, report, -⟩ := Sample.pullIn_early built
  cases done.symm.trans report
  obtain ⟨below, deeper, nested⟩ : o.container Sample.inner = some Sample.outer ∧
      o.container Sample.innermost = some Sample.inner ∧ o.nested Sample.inner ≠ [] := by
    cases built
    decide
  have inside : o.hierarchy.Inside Sample.inner Sample.outer := .of_container below
  have deep : o.hierarchy.Inside Sample.innermost Sample.inner := .of_container deeper
  refine ⟨o, final, built, before, done, ?_, ?_⟩
  · rw [after _ inside, not_or, not_not]
    exact ⟨List.mem_cons_self, nested⟩
  · rw [after _ (deep.trans inside)]
    exact .inl (by decide)

/-- The inner container has moved by four days, and the task inside it has not. -/
theorem pullIn_leaves_behind : ∃ o final, Sample.early = .ok o ∧
    (∀ id, o.hierarchy.Inside id Sample.outer → o.IsFitted id) ∧
    pullIn o Sample.outer .everyDay = (final, .ok [Sample.inner]) ∧
    final.nested Sample.inner = [Sample.innermost] ∧
    final.dates? Sample.inner = some (Sample.day 5, Sample.day 8) ∧
    spanOfNested? final Sample.inner = some (Sample.day 1, Sample.day 4) ∧
    ¬ final.IsFitted Sample.inner := by
  obtain ⟨o, built⟩ : ∃ o, Sample.early = .ok o := ⟨_, rfl⟩
  obtain ⟨forest, ordered⟩ := Sample.forest_threefold built
  obtain ⟨final, done, nested, dates, span⟩ := Sample.pullIn_early built
  refine ⟨o, final, built, Sample.isFitted_early built, done, nested, dates, span, ?_⟩
  obtain ⟨outer, found⟩ : ∃ outer, o.task? Sample.outer = some outer := by
    cases built
    exact ⟨_, rfl⟩
  obtain ⟨_, _, same, -, -, redated, -⟩ := pullIn_spec forest ordered found .everyDay
  cases done.symm.trans same
  rw [isFitted_iff (redated.hierarchy ▸ forest), nested, dates, span]
  decide

end Bounds

end Workplan
