/-
# Workplan.Proofs.Redating — new dates and nothing else

Whatever gives tasks new dates, a pass over a plan or the fitting of containers, works through
`setDates` and `shift`. These leave every task where it is, and let none end before it starts:

* `redatedOn_setDates`, `redatedOn_shift` — one task;
* `RedatedBy` — one task after another; `RedatedBy.count_pos`, `RedatedBy.dates?_ne` — what the list of
  their turns tells of the dates in the end;
* `redated_run`, `redated_fit` — many, also when it stops at an error.
-/
import Workplan.Bounds
import Workplan.Proofs.OutlineEdits
import Workplan.Proofs.WorkingDays
import Workplan.Schedule

namespace Workplan

set_option autoImplicit false

theorem Task.shiftTo_ordered (task : Task) (start : Date) (cal : Calendar) :
    (task.shiftTo start cal).start ≤ (task.shiftTo start cal).finish := by
  unfold shiftTo
  split
  · exact Std.le_refl _
  · exact cal.le_shift start (task.span.length_nonneg cal)

namespace Outline

/-! ## Dates -/

/-- The start and the finish of a task. -/
def dates? (o : Outline) (id : TaskId) : Option (Date × Date) :=
  (o.task? id).map fun task => (task.start, task.finish)

/-- The starts of the tasks directly inside a task. -/
def childStarts (o : Outline) (id : TaskId) : Set Date :=
  {date | ∃ child task, o.container child = some id ∧ o.task? child = some task ∧
    date = task.start}

/-- The ends of the tasks directly inside a task. -/
def childFinishes (o : Outline) (id : TaskId) : Set Date :=
  {date | ∃ child task, o.container child = some id ∧ o.task? child = some task ∧
    date = task.finish}

theorem dates?_of_task? {o : Outline} {id : TaskId} {task : Task} (found : o.task? id = some task) :
    o.dates? id = some (task.start, task.finish) := by
  rw [dates?, found]
  rfl

/-- A task of which nothing but the dates can change is the same if its dates are. -/
theorem dates?_eq_iff {o dated : Outline} {id : TaskId}
    (keeps : ∀ task, o.task? id = some task →
      ∃ start finish, dated.task? id = some (task.withDates start finish)) :
    dated.dates? id = o.dates? id ↔ dated.task? id = o.task? id := by
  constructor
  · intro same
    cases found : o.task? id with
    | none =>
      rw [dates?, dates?, found, Option.map_none, Option.map_eq_none_iff] at same
      exact same
    | some task =>
      obtain ⟨start, finish, placed⟩ := keeps task found
      rw [dates?_of_task? placed, dates?_of_task? found] at same
      obtain ⟨rfl, rfl⟩ : start = task.start ∧ finish = task.finish :=
        Prod.mk.inj (Option.some.inj same)
      exact placed
  · intro same
    rw [dates?, same]
    rfl

/-! ## Nothing but dates -/

/-- The outlines differ in dates alone, and the dates of each task are still in order. -/
structure Redated (o dated : Outline) : Prop where
  hierarchy : dated.hierarchy = o.hierarchy
  ordered : o.Ordered → dated.Ordered

/-- The outlines differ in the dates of some tasks alone. -/
structure RedatedOn (o : Outline) (tasks : Set TaskId) (dated : Outline) : Prop
    extends o.Redated dated where
  others : ∀ id, id ∉ tasks → dated.task? id = o.task? id
  keeps : ∀ id task, o.task? id = some task →
    ∃ start finish, dated.task? id = some (task.withDates start finish)

section Redated

variable {o dated last : Outline} {tasks more : Set TaskId} {id : TaskId}

theorem Redated.refl (o : Outline) : o.Redated o :=
  ⟨rfl, fun ordered => ordered⟩

theorem Redated.trans (first : o.Redated dated) (second : dated.Redated last) : o.Redated last :=
  ⟨second.hierarchy.trans first.hierarchy, fun ordered => second.ordered (first.ordered ordered)⟩

theorem Redated.container (redated : o.Redated dated) (id : TaskId) :
    dated.container id = o.container id :=
  congrFun (congrArg Hierarchy.container redated.hierarchy) id

theorem Redated.nested (redated : o.Redated dated) (id : TaskId) : dated.nested id = o.nested id :=
  congrFun (congrArg Hierarchy.nested redated.hierarchy) id

theorem RedatedOn.refl (o : Outline) (tasks : Set TaskId) : o.RedatedOn tasks o :=
  ⟨.refl o, fun _ _ => rfl, fun _ task found => ⟨task.start, task.finish, found⟩⟩

theorem RedatedOn.trans (first : o.RedatedOn tasks dated) (second : dated.RedatedOn tasks last) :
    o.RedatedOn tasks last := by
  refine ⟨first.toRedated.trans second.toRedated, fun id other => ?_, fun id task found => ?_⟩
  · rw [second.others id other, first.others id other]
  · obtain ⟨start, finish, there⟩ := first.keeps id task found
    obtain ⟨start, finish, placed⟩ := second.keeps id _ there
    exact ⟨start, finish, placed⟩

theorem RedatedOn.mono (redated : o.RedatedOn tasks dated) (all : tasks ⊆ more) :
    o.RedatedOn more dated :=
  ⟨redated.toRedated, fun id other => redated.others id fun inside => other (all inside),
    redated.keeps⟩

theorem RedatedOn.dates?_eq (redated : o.RedatedOn tasks dated) (other : id ∉ tasks) :
    dated.dates? id = o.dates? id := by
  rw [dates?, redated.others id other]
  rfl

/-- What spans a task depends on the dates of the tasks directly inside it alone. -/
theorem RedatedOn.childDates_eq (redated : o.RedatedOn tasks dated)
    (others : ∀ child, o.container child = some id → child ∉ tasks) :
    dated.childStarts id = o.childStarts id ∧ dated.childFinishes id = o.childFinishes id := by
  have same : ∀ child task, dated.container child = some id ∧ dated.task? child = some task ↔
      o.container child = some id ∧ o.task? child = some task := by
    intro child task
    rw [redated.container]
    refine and_congr_right fun below => ?_
    rw [redated.others child (others child below)]
  simp only [childStarts, childFinishes, ← and_assoc, same, and_self]

end Redated

theorem redated_updateTask (o : Outline) (id : TaskId) {f : Task → Task}
    (keeps : ∀ t, (f t).id = t.id) (inOrder : ∀ t, (f t).start ≤ (f t).finish) :
    o.Redated (o.updateTask id f keeps) := by
  refine ⟨hierarchy_updateTask .., fun ordered x task found => ?_⟩
  rw [task?_updateTask] at found
  split at found
  · obtain ⟨old, -, rfl⟩ := Option.map_eq_some_iff.mp found
    exact inOrder old
  · exact ordered x task found

theorem redatedOn_updateTask (o : Outline) (id : TaskId) {f : Task → Task}
    (keeps : ∀ t, (f t).id = t.id) (inOrder : ∀ t, (f t).start ≤ (f t).finish)
    (onlyDates : ∀ t, ∃ start finish, f t = t.withDates start finish) :
    o.RedatedOn {id} (o.updateTask id f keeps) where
  toRedated := redated_updateTask o id keeps inOrder
  others x other := by rw [task?_updateTask, if_neg (show ¬ x = id from other)]
  keeps x task found := by
    rw [task?_updateTask]
    split
    · obtain ⟨start, finish, same⟩ := onlyDates task
      exact ⟨start, finish, by rw [found, Option.map_some, same]⟩
    · exact ⟨task.start, task.finish, found⟩

theorem redatedOn_setDates {o dated : Outline} {id : TaskId} {start finish : Date}
    (done : o.setDates id start finish = .ok dated) : o.RedatedOn {id} dated := by
  unfold setDates at done
  split at done
  · contradiction
  · rename_i inOrder
    split at done
    · cases done
      exact redatedOn_updateTask o id _ (fun _ => Std.not_lt.mp inOrder)
        fun _ => ⟨start, finish, rfl⟩
    · contradiction

theorem redatedOn_shift {o shifted : Outline} {id : TaskId} {start : Date} {cal : Calendar}
    (done : o.shift id start cal = .ok shifted) : o.RedatedOn {id} shifted := by
  unfold shift at done
  split at done
  · cases done
    exact redatedOn_updateTask o id _ (fun task => task.shiftTo_ordered start cal)
      fun task => ⟨start, (task.shiftTo start cal).finish, rfl⟩
  · contradiction

/-! ## One task after another -/

/-- The tasks of a list get new dates in their turns, each other ones than it has then. -/
inductive RedatedBy : Outline → List TaskId → Outline → Prop where
  | nil (o : Outline) : RedatedBy o [] o
  | cons {o next last : Outline} {id : TaskId} {rest : List TaskId} (turn : o.RedatedOn {id} next)
      (changes : next.dates? id ≠ o.dates? id) (later : RedatedBy next rest last) :
      RedatedBy o (id :: rest) last

namespace RedatedBy

variable {o dated last : Outline} {list more : List TaskId} {id : TaskId}

theorem append (first : o.RedatedBy list dated) (second : dated.RedatedBy more last) :
    o.RedatedBy (list ++ more) last := by
  induction first with
  | nil => exact second
  | cons turn changes _ ih => exact .cons turn changes (ih second)

theorem redatedOn (turns : o.RedatedBy list last) : o.RedatedOn {id | id ∈ list} last := by
  induction turns with
  | nil o => exact .refl o _
  | cons turn _ _ ih =>
    refine (turn.mono ?_).trans (ih.mono fun _ member => List.mem_cons_of_mem _ member)
    rintro _ rfl
    exact List.mem_cons_self

/-- A task whose dates are not what they were has had a turn. -/
theorem count_pos (turns : o.RedatedBy list last) (differ : last.dates? id ≠ o.dates? id) :
    0 < list.count id :=
  List.count_pos_iff.mpr (by_contra fun absent => differ (turns.redatedOn.dates?_eq absent))

/-- A task that has had one turn has other dates than before. With more turns it may have got the old ones
back. -/
theorem dates?_ne (turns : o.RedatedBy list last) (once : list.count id = 1) :
    last.dates? id ≠ o.dates? id := by
  induction turns with
  | nil => simp at once
  | @cons o next last head rest turn changes later ih =>
    by_cases here : head = id
    · subst here
      rw [List.count_cons_self] at once
      have absent : head ∉ rest := List.count_eq_zero.mp (by omega)
      rwa [later.redatedOn.dates?_eq absent]
    · rw [List.count_cons_of_ne here] at once
      have same : next.dates? id = o.dates? id := turn.dates?_eq (Ne.symm here)
      exact same ▸ ih once

end RedatedBy

end Outline

namespace Schedule

variable {flow : Flow} {cal : Calendar} {o placed : Outline} {outcome : Outcome}

theorem redated_placeContainer {task : Task} {start : Window} {finish : Option Date}
    (done : placeContainer o task start finish = .ok (placed, outcome)) :
    o.Redated placed := by
  simp only [placeContainer] at done
  split at done
  · cases done
    exact .refl o
  · obtain ⟨dated, set, same⟩ := exists_ok_of_map done
    cases same
    exact (Outline.redatedOn_setDates set).toRedated

theorem redated_placeLeaf {task : Task} {start : Window}
    (done : placeLeaf o cal task start = .ok (placed, outcome)) :
    o.Redated placed := by
  unfold placeLeaf at done
  split at done
  · cases done
    exact .refl o
  · split at done
    · cases done
      exact .refl o
    · obtain ⟨shifted, moved, same⟩ := exists_ok_of_map done
      cases same
      exact (Outline.redatedOn_shift moved).toRedated

theorem redated_placeTask {id : TaskId}
    (done : placeTask flow cal o id = .ok (placed, outcome)) : o.Redated placed := by
  unfold placeTask at done
  split at done
  · cases done
    exact .refl o
  · simp only at done
    split at done
    · cases done
      exact .refl o
    · split at done
      · exact redated_placeLeaf done
      · exact redated_placeContainer done

theorem redated_placeAll (list : List TaskId) (o : Outline) (report : ScheduleReport) :
    o.Redated (placeAll flow cal list o report).1 := by
  induction list generalizing o report with
  | nil => exact .refl o
  | cons id rest ih =>
    simp only [placeAll]
    split
    · exact .refl o
    · rename_i placed
      exact (redated_placeTask placed).trans (ih _ _)

theorem redated_run (enabled : Bool) (o : Outline) (net : Network) (cal : Calendar) :
    o.Redated (run enabled o net cal).1 := by
  unfold run pass
  split
  · simp only
    split
    · exact .refl o
    · exact redated_placeAll _ _ _
  · exact .refl o

end Schedule

namespace Bounds

theorem redated_refit? {o fitted : Outline} {container : TaskId}
    (done : refit? o container = .ok (some fitted)) : o.Redated fitted := by
  unfold refit? at done
  split at done
  · split at done
    · cases done
    · obtain ⟨dated, set, same⟩ := exists_ok_of_map done
      cases same
      exact (Outline.redatedOn_setDates set).toRedated
  · cases done

theorem redated_fitRound (level : List TaskId) (o : Outline) :
    o.Redated (fitRound level o).1 := by
  induction level generalizing o with
  | nil => exact .refl o
  | cons container rest ih =>
    simp only [fitRound]
    split
    · exact .refl o
    · exact ih o
    · rename_i fitted done
      exact (redated_refit? done).trans (ih fitted)

theorem redated_fitRounds (rounds : Nat) (level : TaskSet) (o : Outline) :
    o.Redated (fitRounds rounds level o).1 := by
  induction rounds generalizing level o with
  | zero => exact .refl o
  | succ rounds ih =>
    have round := redated_fitRound level.entries o
    simp only [fitRounds]
    split
    · exact .refl o
    · split
      · rename_i stopped
        rwa [stopped] at round
      · rename_i done
        rw [done] at round
        exact round.trans (ih _ _)

theorem redated_fit (o : Outline) (tasks : List TaskId) :
    o.Redated (fit o tasks).1 :=
  redated_fitRounds _ _ _

end Bounds

end Workplan
