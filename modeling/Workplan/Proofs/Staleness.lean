/-
# Workplan.Proofs.Staleness — a schedule that is not stale is up to date

A project reschedules only when its schedule is stale, so whatever can put a task out of its place has
to mark it. `UpToDate` says of a project that it has: unless its schedule is stale, all tasks rest but
those that elastic containers lead to. Only the silent edits of the links break it, for they change
what links ask and mark nothing.

* `upToDate_editLinks` — edits of the links that tell their changes;
* `upToDate_apply` — every edit but the silent ones;
* `clean_schedule_is_current` — so as long as none of these was made, and rescheduling kept the lengths
  of all tasks without subtasks, a pass over a project that is not stale has nothing to do;
* `clean_schedule_out_of_date` — each of the three exceptions is needed.
-/
import Workplan.Proofs.ProjectRuns
import Workplan.Proofs.SecondPass
import Workplan.Proofs.ToldChanges

namespace Workplan.Project

set_option autoImplicit false

open Schedule (Unsettled Rests)

/-- Unless the schedule is stale, every settled task rests. -/
def UpToDate (p : Project) : Prop :=
  p.stale = false → ∀ id, ¬ Unsettled p.outline p.network id →
    Rests p.outline p.network p.calendar id

/-- The edits of the links that may change them and mark nothing. -/
def Edit.IsSilent : Edit → Prop
  | .links edit => edit.IsSilent
  | _ => False

/-- Whenever the edits reschedule, no task without subtasks changes its length. -/
def KeepsLengths (p : Project) : List Edit → Prop
  | [] => True
  | edit :: rest =>
    (edit = .reschedule → p.outline.KeepsLengths (p.apply edit).outline p.calendar) ∧
      (p.apply edit).KeepsLengths rest

variable {p : Project}

theorem upToDate_of_stale (stale : p.stale = true) : p.UpToDate := by
  intro clean
  rw [stale] at clean
  contradiction

/-- Where tasks, containers, links and calendar are the same, so is what rests. -/
theorem UpToDate.of_same (current : p.UpToDate) {edited : Project}
    (containers : edited.outline.container = p.outline.container)
    (tasks : ∀ x, edited.outline.task? x = p.outline.task? x) (links : edited.network = p.network)
    (week : edited.week = p.week) (stale : edited.stale = false → p.stale = false) :
    edited.UpToDate := by
  intro clean id settled
  have calendar : edited.calendar = p.calendar := congrArg WorkWeek.calendar week
  rw [links] at settled ⊢
  rw [calendar]
  refine Schedule.rests_congr containers tasks (current (stale clean) id ?_)
  rwa [Schedule.unsettled_congr containers fun x => congrArg _ (tasks x)] at settled

theorem upToDate_withOutline (current : p.UpToDate) (edited : Except OutlineError Outline) :
    (p.after (p.withOutline edited)).UpToDate := by
  cases edited with
  | error reason => exact current
  | ok outline => exact upToDate_of_stale rfl

/-- If the schedule is not stale after an edit of the links that tells its changes, it was not stale
before, and nothing has changed. -/
theorem upToDate_editLinks {α : Type} (current : p.UpToDate)
    (edit : Hierarchy → Network → Edited Network α)
    (tells : (edit p.hierarchy p.network).Tells p.network) : (p.editLinks edit).state.UpToDate := by
  cases stale : (p.editLinks edit).state.stale with
  | true => exact upToDate_of_stale stale
  | false =>
    obtain ⟨clean, none⟩ := Bool.or_eq_false_iff.mp stale
    have unchanged : (edit p.hierarchy p.network).changes = [] := by simpa using none
    exact current.of_same rfl (fun _ => rfl) (tells unchanged) rfl fun _ => clean

theorem upToDate_setPredecessors (current : p.UpToDate) (task : TaskId)
    (text separator : List Char) : (p.setPredecessors task text separator).state.UpToDate := by
  unfold setPredecessors
  split
  · exact current
  · rename_i tokens _
    exact upToDate_editLinks current
      (fun h net => (net.removeAll ((net.asDependant task).map Link.key)).andThen fun _ net =>
        Predecessor.apply h net task tokens)
      ((Network.logs_removeAll _ _).andThen fun _ net =>
        Predecessor.logs_apply _ net task tokens).tells

/-- A move that is refused gives every task its container back. -/
theorem upToDate_move (coherent : p.IsCoherent) (current : p.UpToDate) (task : TaskId)
    (target : Option TaskId) : (p.move task target).1.UpToDate := by
  simp only [move]
  split
  · exact current
  · rename_i moved done
    split
    · exact upToDate_of_stale rfl
    · obtain ⟨restored, undone, containers, -⟩ := move_back coherent.plan.forest done
      rw [undone]
      refine current.of_same containers (fun x => ?_) rfl rfl fun clean => clean
      exact (Outline.task?_move undone x).trans (Outline.task?_move done x)

/-- A pass that kept the lengths leaves every settled task at rest. -/
theorem upToDate_reschedule (coherent : p.IsCoherent) (current : p.UpToDate)
    (lengths : p.outline.KeepsLengths p.reschedule.1.outline p.calendar) :
    p.reschedule.1.UpToDate := by
  unfold reschedule at lengths ⊢
  split
  · exact current
  · rename_i runs
    obtain ⟨enabled, -⟩ : p.enabled = true ∧ p.stale = true := by simpa using runs
    obtain ⟨final, report, done, pass⟩ := Schedule.run_spec coherent.plan p.calendar
    rw [if_neg runs, enabled, done] at lengths
    rw [enabled, done]
    intro _ id settled
    refine pass.rests coherent.plan lengths fun elastic => settled ?_
    have containers : final.container = p.outline.container :=
      congrArg Hierarchy.container pass.redated.hierarchy
    rw [Schedule.unsettled_congr containers (pass.milestones coherent.plan)]
    exact ⟨id, elastic, .refl⟩

theorem upToDate_fitBounds (coherent : p.IsCoherent) (current : p.UpToDate)
    (tasks : List TaskId) : (p.fitBounds tasks).1.UpToDate := by
  obtain ⟨fitted, changed, done, unchanged⟩ := Bounds.fit_spec coherent.ordered tasks
  simp only [fitBounds, done]
  cases none : changed with
  | cons first rest => exact upToDate_of_stale (Bool.or_true _)
  | nil =>
    rw [unchanged none]
    exact current.of_same rfl (fun _ => rfl) rfl rfl fun clean => (Bool.or_eq_false_iff.mp clean).1

/-- Every edit but a silent one keeps a project up to date. -/
theorem upToDate_apply (coherent : p.IsCoherent) (current : p.UpToDate) {edit : Edit}
    (told : ¬ edit.IsSilent)
    (lengths : edit = .reschedule → p.outline.KeepsLengths (p.apply edit).outline p.calendar) :
    (p.apply edit).UpToDate := by
  cases edit with
  | add task => exact upToDate_withOutline current _
  | nest parent task => exact upToDate_withOutline current _
  | move task target => exact upToDate_move coherent current task target
  | setDates task start finish => exact upToDate_withOutline current _
  | links edit => exact upToDate_editLinks current _ (LinkEdit.tells _ _ told)
  | setPredecessors task text separator => exact upToDate_setPredecessors current task text separator
  | loadRecords records =>
    exact upToDate_editLinks current (fun h net => Record.restore h net records)
      (Record.logs_restore _ _ records).tells
  | detach task => exact upToDate_editLinks current _ (Network.logs_removeAll _ _).tells
  | clearLinks => exact upToDate_of_stale rfl
  | reschedule => exact upToDate_reschedule coherent current (lengths rfl)
  | fitBounds tasks => exact upToDate_fitBounds coherent current tasks
  | enable on => exact current

theorem upToDate_ofSettings {settings : Settings} (opened : ofSettings settings = .ok p) :
    p.UpToDate := by
  obtain ⟨week, -, rfl⟩ := exists_ok_of_map opened
  exact fun _ _ _ _ found => nomatch found

theorem upToDate_run (coherent : p.IsCoherent) (current : p.UpToDate) {edits : List Edit}
    (told : ∀ edit ∈ edits, ¬ edit.IsSilent) (lengths : p.KeepsLengths edits) :
    (p.run edits).UpToDate := by
  induction edits generalizing p with
  | nil => exact current
  | cons edit rest ih =>
    have first := upToDate_apply coherent current (told edit List.mem_cons_self) lengths.1
    exact ih (isCoherent_apply coherent edit) first
      (fun later member => told later (List.mem_cons_of_mem _ member)) lengths.2

/-- Whatever is asked of a project that starts empty, but for the silent edits of the links: as long as
rescheduling kept the lengths of all tasks without subtasks, then if the scheduler is enabled and the
schedule not stale, a pass would succeed and change no task, except for elastic containers and what
comes after them. -/
theorem clean_schedule_is_current {settings : Settings} {start : Project}
    (opened : ofSettings settings = .ok start) {edits : List Edit}
    (told : ∀ edit ∈ edits, ¬ edit.IsSilent) (lengths : start.KeepsLengths edits)
    (enabled : (start.run edits).enabled = true) (clean : (start.run edits).stale = false) :
    ∃ next report, Schedule.run (start.run edits).enabled (start.run edits).outline
        (start.run edits).network (start.run edits).calendar = (next, .ok report) ∧
      ∀ id, ¬ Unsettled (start.run edits).outline (start.run edits).network id →
        next.task? id = (start.run edits).outline.task? id ∧ id ∉ report.modified := by
  have begun := isCoherent_ofSettings opened
  have coherent := (isCoherent_run begun edits).plan
  have current := upToDate_run begun (upToDate_ofSettings opened) told lengths
  obtain ⟨next, report, done, pass⟩ := Schedule.run_spec coherent (start.run edits).calendar
  refine ⟨next, report, by rw [enabled]; exact done, fun id settled => ?_⟩
  have stays := pass.stays coherent (current clean) settled
  exact ⟨stays, pass.not_modified stays⟩

/-- After the edits of the sample, one of which is refused and another one taken back. -/
theorem clean_schedule_is_current_sample : ∃ start, ofSettings { weekends := [] } = .ok start ∧
    (start.run Edit.sample).stale = false ∧
    ∃ next report, Schedule.run (start.run Edit.sample).enabled (start.run Edit.sample).outline
        (start.run Edit.sample).network (start.run Edit.sample).calendar = (next, .ok report) ∧
      ∀ id, next.task? id = (start.run Edit.sample).outline.task? id := by
  refine ⟨_, rfl, by decide, ?_⟩
  have told : ∀ edit ∈ Edit.sample, ¬ edit.IsSilent := by
    simp [Edit.sample, Edit.IsSilent, LinkEdit.IsSilent]
  obtain ⟨next, report, done, stays⟩ :=
    clean_schedule_is_current (show ofSettings { weekends := [] } = .ok _ from rfl) told
      ⟨nofun, nofun, nofun, nofun, nofun, nofun,
        fun _ => Outline.keepsLengths_of_ids (by decide), trivial⟩ (by decide) (by decide)
  refine ⟨next, report, done, fun id => (stays id ?_).1⟩
  exact Schedule.settled_of_bindsStart (by decide)

/-! ## Schedules that are clean and out of date -/

/-- Rescheduling does nothing, although a pass would change a task. -/
def IsOverlooked (p : Project) : Prop :=
  p.enabled = true ∧ p.stale = false ∧
    ∃ id, (Schedule.run p.enabled p.outline p.network p.calendar).1.task? id ≠ p.outline.task? id

/-- A rubber link that is kept becomes a strong one, which would pull its dependant back. -/
def Edit.hardened : List Edit :=
  [.add (Sample.task Sample.other (Sample.day 0) (Sample.day 2)),
    .add (Sample.task Sample.outer (Sample.day 9) (Sample.day 11)),
    .links (.add { key := ⟨Sample.outer, Sample.other⟩, hardness := .rubber }),
    .reschedule,
    .links (.setHardness ⟨Sample.outer, Sample.other⟩ .strong)]

/-- A container has to finish with a task, and lies around one that ends later. -/
def Edit.stretched : List Edit :=
  [.add (Sample.task Sample.other (Sample.day 0) (Sample.day 9)),
    .add (Sample.task Sample.outer (Sample.day 0) (Sample.day 2)),
    .nest Sample.outer (Sample.task Sample.inner (Sample.day 4) (Sample.day 11)),
    .links (.add { key := ⟨Sample.outer, Sample.other⟩, relation := .finishFinish }),
    .reschedule]

/-- A task of a week has to finish with a task that takes the last days there are, but must not start
before the last weekend. -/
def Edit.atTheEnd : List Edit :=
  [.add (Sample.task Sample.other (Date.last.addDays (-10)) Date.last),
    .add { Sample.task Sample.inner (Date.last.addDays (-14)) (Date.last.addDays (-9)) with
      earliestStart := some (Date.last.addDays (-2)) },
    .links (.add { key := ⟨Sample.inner, Sample.other⟩, relation := .finishFinish }),
    .reschedule]

/-- A link whose hardness was changed in silence, an elastic container, and a task that lost its length
at the end of the calendar. -/
theorem clean_schedule_out_of_date :
    (∃ start, ofSettings { weekends := [] } = .ok start ∧ (start.run Edit.hardened).IsOverlooked) ∧
    (∃ start, ofSettings { weekends := [] } = .ok start ∧ (start.run Edit.stretched).IsOverlooked) ∧
    ∃ start, ofSettings {} = .ok start ∧ (start.run Edit.atTheEnd).IsOverlooked :=
  ⟨⟨_, rfl, by decide, by decide, Sample.outer, by decide⟩,
    ⟨_, rfl, by decide, by decide, Sample.outer, by decide⟩,
    ⟨_, rfl, by decide, by decide, Sample.inner, by decide⟩⟩

end Workplan.Project
