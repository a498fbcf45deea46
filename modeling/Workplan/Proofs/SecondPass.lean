/-
# Workplan.Proofs.SecondPass — what a second pass has left to do

A task rests if its turn, finding the outline as it is, leaves it as it is. After a pass the tasks
rest that kept their lengths: all others that a link could have measured are containers. A link that
binds the finish of a container finds the length from before the pass, and the next pass finds another
one, so such a container, `Elastic`, may move again, and so may all that comes after it.

* `Passes.rests` — a task that is not elastic rests after a pass;
* `Passes.stays` — a pass leaves all tasks alone that rest and come after resting tasks only;
* `keepsLengths_of_steady` — on a steady calendar with days enough, tasks without subtasks keep their
  lengths;
* `second_pass_stays` — so a second pass finds nothing to do but what elastic containers lead to;
* `second_pass_moves_elastic` — and there it may find more to do.
-/
import Workplan.Proofs.Settling
import Workplan.Proofs.SteadyWalks

namespace Workplan

set_option autoImplicit false

/-- Every task without subtasks takes as many working days as before. -/
def Outline.KeepsLengths (o placed : Outline) (cal : Calendar) : Prop :=
  ∀ id task moved, o.task? id = some task → placed.task? id = some moved → o.nested id = [] →
    moved.span.length cal = task.span.length cal

theorem Outline.keepsLengths_of_ids {o placed : Outline} {cal : Calendar}
    (same : ∀ id ∈ o.ids, ∀ task ∈ o.task? id, ∀ moved ∈ placed.task? id,
      moved.span.length cal = task.span.length cal) : o.KeepsLengths placed cal :=
  fun id task moved found movedIs _ =>
    same id (Outline.exists_task?_iff.mp ⟨task, found⟩) task found moved movedIs

namespace Schedule

/-- A turn that finds the outline as it is leaves the task as it is. -/
def Rests (o : Outline) (net : Network) (cal : Calendar) (id : TaskId) : Prop :=
  ∀ task, o.task? id = some task →
    Settles cal (strongDates net o cal id) (linkDates net o.hierarchy o cal id)
      (nestedDates o.hierarchy o id) task task

/-- A container on which, or on something around which, a link binds the finish. A milestone has no
length that could change. -/
structure Elastic (o : Outline) (net : Network) (id : TaskId) : Prop where
  container : ∃ child, o.container child = some id
  noMilestone : ∃ task, o.task? id = some task ∧ task.milestone = false
  bound : ∃ link ∈ net.links, o.hierarchy.Under id link.dependant ∧
    link.relation.bindsDependantFinish = true

/-- Elastic, or placed after an elastic container. -/
def Unsettled (o : Outline) (net : Network) (id : TaskId) : Prop :=
  ∃ source, Elastic o net source ∧ Relation.ReflTransGen (Precedes o.hierarchy net) source id

section Stability

variable {o final : Outline} {net : Network} {cal : Calendar} {report : ScheduleReport}
  {id : TaskId}

theorem Unsettled.step {later : TaskId} (unsettled : Unsettled o net id)
    (arrow : Precedes o.hierarchy net id later) : Unsettled o net later := by
  obtain ⟨source, elastic, way⟩ := unsettled
  exact ⟨source, elastic, way.tail arrow⟩

/-- Where links only bind starts, no container is elastic. -/
theorem settled_of_bindsStart
    (binds : ∀ link ∈ net.links, link.relation.bindsDependantFinish = false) :
    ¬ Unsettled o net id := by
  rintro ⟨source, ⟨-, -, link, member, -, finish⟩, -⟩
  rw [binds link member] at finish
  contradiction

theorem Elastic.of_congr {other : Outline} (containers : other.container = o.container)
    (milestones : ∀ x, (other.task? x).map Task.milestone = (o.task? x).map Task.milestone)
    (elastic : Elastic other net id) : Elastic o net id := by
  obtain ⟨⟨child, below⟩, ⟨task, found, length⟩, link, member, under, binds⟩ := elastic
  obtain ⟨known, there, same⟩ := Option.map_eq_some_iff.mp
    ((milestones id).symm.trans (congrArg (Option.map Task.milestone) found))
  have above : other.hierarchy.Under = o.hierarchy.Under := under_congr containers
  exact ⟨⟨child, containers ▸ below⟩, ⟨known, there, same.trans length⟩, link, member,
    above ▸ under, binds⟩

/-- What is unsettled depends only on the containers, the milestones and the links. -/
theorem unsettled_congr {other : Outline} (containers : other.container = o.container)
    (milestones : ∀ x, (other.task? x).map Task.milestone = (o.task? x).map Task.milestone) :
    Unsettled other net id ↔ Unsettled o net id := by
  have arrows : Precedes other.hierarchy net = Precedes o.hierarchy net := precedes_congr containers
  constructor
  · rintro ⟨source, elastic, way⟩
    exact ⟨source, elastic.of_congr containers milestones, arrows ▸ way⟩
  · rintro ⟨source, elastic, way⟩
    exact ⟨source, elastic.of_congr containers.symm fun x => (milestones x).symm, arrows ▸ way⟩

theorem Passes.exists_settles (coherent : Coherent o net)
    (pass : Passes (Flow.ofPlan o net) cal o.ids o final {} report) {task : Task}
    (found : o.task? id = some task) :
    ∃ seen placed, Turn (Flow.ofPlan o net) cal o final report id seen ∧
      (∀ source, Precedes o.hierarchy net source id → seen.task? source = final.task? source) ∧
      final.task? id = some placed ∧
      Settles cal (strongDates net seen cal id) (linkDates net o.hierarchy seen cal id)
        (nestedDates o.hierarchy seen id) task placed := by
  obtain ⟨seen, turn⟩ := pass.turn id (Outline.exists_task?_iff.mp ⟨task, found⟩)
  obtain ⟨placed, placedIs, settles⟩ := turn.settles coherent found
  exact ⟨seen, placed, turn, fun _ arrow => turn.source coherent arrow, placedIs, settles⟩

theorem Passes.milestones (coherent : Coherent o net)
    (pass : Passes (Flow.ofPlan o net) cal o.ids o final {} report) (x : TaskId) :
    (final.task? x).map Task.milestone = (o.task? x).map Task.milestone := by
  by_cases known : x ∈ o.ids
  · obtain ⟨task, found⟩ := Outline.exists_task?_iff.mpr known
    obtain ⟨seen, placed, -, -, placedIs, settles⟩ := pass.exists_settles coherent found
    rw [found, placedIs, Option.map_some, Option.map_some, settles.milestone_eq]
  · rw [pass.others x known]

/-- Where a link binds the finish of a container that is not elastic, the container is a milestone. -/
theorem length_eq_of_firm (forest : o.hierarchy.IsForest) {task placed : Task}
    (found : o.task? id = some task) (nested : o.nested id ≠ []) (firm : ¬ Elastic o net id)
    (same : placed.milestone = task.milestone) {link : Link} (member : link ∈ net.links)
    (under : o.hierarchy.Under id link.dependant)
    (binds : link.relation.bindsDependantFinish = true) :
    task.span.length cal = placed.span.length cal := by
  obtain ⟨child, inside⟩ := List.exists_mem_of_ne_nil _ nested
  have below : o.container child = some id := (forest.mem_nested id child).mp inside
  have milestone : task.milestone = true := by
    by_contra length
    exact firm ⟨⟨child, below⟩, ⟨task, found, Bool.not_eq_true _ ▸ length⟩, link, member, under,
      binds⟩
  rw [Task.length_of_milestone cal milestone, Task.length_of_milestone cal (same.trans milestone)]

/-- After a pass that kept the lengths, every task rests but elastic containers. -/
theorem Passes.rests (coherent : Coherent o net)
    (pass : Passes (Flow.ofPlan o net) cal o.ids o final {} report)
    (lengths : o.KeepsLengths final cal) (firm : ¬ Elastic o net id) : Rests final net cal id := by
  intro placed placedIs
  have ids : final.ids = o.ids := congrArg Hierarchy.tasks pass.redated.hierarchy
  obtain ⟨task, found⟩ := Outline.exists_task?_iff.mpr
    (ids ▸ Outline.exists_task?_iff.mp ⟨placed, placedIs⟩)
  obtain ⟨seen, _, turn, sources, there, settles⟩ := pass.exists_settles coherent found
  cases there.symm.trans placedIs
  have own : seen.task? id = some task := turn.own.trans found
  have sameLength : ∀ link ∈ net.links, o.hierarchy.Under id link.dependant →
      link.relation.bindsDependantFinish = true →
        task.span.length cal = placed.span.length cal := by
    intro link member under binds
    by_cases leaf : o.nested id = []
    · exact (lengths id task placed found placedIs leaf).symm
    · exact length_eq_of_firm coherent.forest found leaf firm settles.milestone_eq member under binds
  rw [nestedDates_congr sources, linkDates_congr own placedIs sources sameLength] at settles
  have within : strongDates net final cal id ⊆ linkDates net o.hierarchy final cal id :=
    strongDates_subset o.hierarchy final cal id
  rw [← pass.redated.hierarchy] at settles within
  refine settles.again ?_ within fun same => ?_
  · rw [pass.redated.hierarchy, ← linkDates_congr own placedIs sources sameLength]
    exact strongDates_subset o.hierarchy seen cal id
  · exact (strongDates_congr sources (own.trans (same ▸ placedIs).symm)).symm

/-- A pass leaves a task alone if all settled tasks rest and the task is one of them. By induction
along the plan: the tasks that come before it are settled too, so its turn finds them as they were. -/
theorem Passes.stays (coherent : Coherent o net)
    (pass : Passes (Flow.ofPlan o net) cal o.ids o final {} report)
    (rest : ∀ x, ¬ Unsettled o net x → Rests o net cal x) (settled : ¬ Unsettled o net id) :
    final.task? id = o.task? id := by
  induction id using coherent.forwards with
  | step id ih =>
    by_cases known : id ∈ o.ids
    · obtain ⟨task, found⟩ := Outline.exists_task?_iff.mpr known
      obtain ⟨seen, placed, turn, sources, placedIs, settles⟩ := pass.exists_settles coherent found
      have before : ∀ source, Precedes o.hierarchy net source id →
          seen.task? source = o.task? source := fun source arrow =>
        (sources source arrow).trans
          (ih source arrow fun unsettled => settled (unsettled.step arrow))
      rw [nestedDates_congr before, strongDates_congr before turn.own,
        linkDates_congr (turn.own.trans found) found before fun _ _ _ _ => rfl] at settles
      rw [placedIs, found, settles.unique (rest id settled task found)]
    · exact pass.others id known

/-- Such a task is not called modified. -/
theorem Passes.not_modified (pass : Passes (Flow.ofPlan o net) cal o.ids o final {} report)
    (stays : final.task? id = o.task? id) : id ∉ report.modified := by
  intro named
  by_cases known : id ∈ o.ids
  · obtain ⟨seen, turn⟩ := pass.turn id known
    exact turn.modified named stays
  · exact List.not_mem_nil ((pass.othersModified id known).mp named)

/-- Whether a task rests depends only on the tasks, the containers and the links. -/
theorem rests_congr {other : Outline} (containers : other.container = o.container)
    (tasks : ∀ x, other.task? x = o.task? x) (rests : Rests o net cal id) :
    Rests other net cal id := by
  have under : other.hierarchy.Under = o.hierarchy.Under := under_congr containers
  have spans : other.span? = o.span? := funext fun x => Outline.span?_congr (tasks x)
  have strong : strongDates net other cal id = strongDates net o cal id := by
    simp only [strongDates, spans]
  have linked : linkDates net other.hierarchy other cal id =
      linkDates net o.hierarchy o cal id := by
    simp only [linkDates, spans, under]
  have nested : nestedDates other.hierarchy other id = nestedDates o.hierarchy o id := by
    have same : other.hierarchy.container = o.hierarchy.container := containers
    simp only [nestedDates, same, tasks]
  intro task found
  rw [strong, linked, nested]
  exact rests task ((tasks id).symm.trans found)

/-! ## Two passes -/

/-- From the new start of every task without subtasks, the calendar has as many working days as the
task takes. -/
def StaysInside (o : Outline) (net : Network) (cal : Calendar) : Prop :=
  ∀ id task moved, o.task? id = some task → (run true o net cal).1.task? id = some moved →
    o.nested id = [] → task.span.length cal ≤ cal.between moved.start Date.last

theorem keepsLengths_of_steady (coherent : Coherent o net) (steady : cal.Steady)
    (inside : StaysInside o net cal) : o.KeepsLengths (run true o net cal).1 cal := by
  intro id task moved found movedIs leaf
  have room := inside id task moved found movedIs leaf
  obtain ⟨final, report, done, pass⟩ := run_spec coherent cal
  rw [done] at movedIs
  obtain ⟨seen, _, -, -, there, settles⟩ := pass.exists_settles coherent found
  cases there.symm.trans movedIs
  rw [nestedDates_leaf coherent.forest leaf] at settles
  rcases settles.moved with rfl | shifted
  · rfl
  · rw [shifted]
    exact steady.length_shiftTo room

/-- On a coherent plan and a steady calendar, with working days enough for all that is moved, a second
pass right after the first one changes and reports no task, but elastic containers and what comes
after them. -/
theorem second_pass_stays (coherent : Coherent o net) (steady : cal.Steady)
    (inside : StaysInside o net cal) :
    ∃ first firstReport second secondReport,
      run true o net cal = (first, .ok firstReport) ∧
      run true first net cal = (second, .ok secondReport) ∧
      (∀ id, ¬ Unsettled o net id → second.task? id = first.task? id) ∧
      ∀ id ∈ secondReport.modified, Unsettled o net id := by
  have lengths := keepsLengths_of_steady coherent steady inside
  obtain ⟨first, firstReport, done, pass⟩ := run_spec coherent cal
  rw [done] at lengths
  have coherentAfter := coherent.of_hierarchy pass.redated.hierarchy
  obtain ⟨second, secondReport, again, secondPass⟩ := run_spec coherentAfter cal
  have containers : first.container = o.container :=
    congrArg Hierarchy.container pass.redated.hierarchy
  have unsettled : ∀ id, Unsettled first net id ↔ Unsettled o net id := fun id =>
    unsettled_congr containers (pass.milestones coherent)
  have stays : ∀ id, ¬ Unsettled o net id → second.task? id = first.task? id := by
    intro id settled
    refine secondPass.stays coherentAfter (fun x calm => pass.rests coherent lengths ?_)
      ((unsettled id).not.mpr settled)
    exact fun elastic => (unsettled x).not.mp calm ⟨x, elastic, .refl⟩
  refine ⟨first, firstReport, second, secondReport, done, again, stays, fun id named => ?_⟩
  by_contra settled
  exact secondPass.not_modified (stays id settled) named

end Stability

theorem staysInside_everyDay {o : Outline} {net : Network}
    (room : ∀ id ∈ o.ids, ∀ task ∈ o.task? id, ∀ moved ∈ (run true o net .everyDay).1.task? id,
      moved.start.day + task.span.length .everyDay ≤ Date.last.day) :
    StaysInside o net .everyDay := by
  intro id task moved found movedIs _
  have known := Outline.exists_task?_iff.mp ⟨task, found⟩
  have days := room id known task found moved movedIs
  rw [Calendar.between_eq_card moved.start.le_last, Calendar.workedDays_everyDay,
    Calendar.card_daysFrom]
  omega

/-- The pass moves the inner task and with it the outer one; then there is nothing left to do. -/
theorem second_pass_stays_in_container : ∃ o first firstReport second secondReport,
    Sample.outline = .ok o ∧
    run true o Sample.network .everyDay = (first, .ok firstReport) ∧
    firstReport.modified = [Sample.inner, Sample.outer] ∧
    run true first Sample.network .everyDay = (second, .ok secondReport) ∧
    (∀ id, second.task? id = first.task? id) ∧ secondReport.modified = [] := by
  obtain ⟨o, built⟩ : ∃ o, Sample.outline = .ok o := ⟨_, rfl⟩
  obtain ⟨coherent, -⟩ := Sample.coherent_outline built
  have inside : StaysInside o Sample.network .everyDay := by
    refine staysInside_everyDay ?_
    cases built
    decide
  obtain ⟨first, firstReport, second, secondReport, done, again, stays, modified⟩ :=
    second_pass_stays coherent Calendar.steady_everyDay inside
  have settled : ∀ id, ¬ Unsettled o Sample.network id :=
    fun id => settled_of_bindsStart (by decide)
  have moved : ((run true o Sample.network .everyDay).2.toOption.map ScheduleReport.modified) =
      some [Sample.inner, Sample.outer] := by
    cases built
    decide
  rw [done] at moved
  refine ⟨o, first, firstReport, second, secondReport, built, done, Option.some.inj moved, again,
    fun id => stays id (settled id), ?_⟩
  exact List.eq_nil_iff_forall_not_mem.mpr fun id named => settled id (modified id named)

end Schedule

namespace Sample

/-! ## A container that is shorter than what lies in it -/

/-- The inner task lies in the outer one and ends later, the other task stands beside them. -/
def stretched : Except OutlineError Outline := do
  let o ← Outline.empty.add (task other (day 0) (day 9))
  let o ← o.add (task outer (day 0) (day 2))
  o.nest outer (task inner (day 4) (day 11))

/-- The outer task must not finish before the other one. -/
def finishing : Network :=
  (Network.empty {}).insertLink { key := ⟨outer, other⟩, relation := .finishFinish }

theorem coherent_stretched {o : Outline} (built : stretched = .ok o) : Coherent o finishing := by
  unfold stretched at built
  obtain ⟨_, alone, rest⟩ := exists_ok_of_bind built
  obtain ⟨_, beside, below⟩ := exists_ok_of_bind rest
  have coherent := (((coherent_empty {}).add_task alone).add_task beside).nest below
  refine coherent.insertLink ?_ ?_ ?_ <;> cases built <;> decide

end Sample

namespace Schedule

/-- The first pass finds the outer task two days long and starts it two days before the other one
finishes; then it is four days long, and the second pass moves it again. -/
theorem second_pass_moves_elastic : ∃ o first firstReport second secondReport,
    Sample.stretched = .ok o ∧ Coherent o Sample.finishing ∧
    Calendar.everyDay.Steady ∧ StaysInside o Sample.finishing .everyDay ∧
    run true o Sample.finishing .everyDay = (first, .ok firstReport) ∧
    run true first Sample.finishing .everyDay = (second, .ok secondReport) ∧
    secondReport.modified = [Sample.outer] ∧
    second.task? Sample.outer ≠ first.task? Sample.outer := by
  obtain ⟨o, built⟩ : ∃ o, Sample.stretched = .ok o := ⟨_, rfl⟩
  have coherent := Sample.coherent_stretched built
  have inside : StaysInside o Sample.finishing .everyDay := by
    refine staysInside_everyDay ?_
    cases built
    decide
  cases built
  exact ⟨_, _, _, _, _, rfl, coherent, Calendar.steady_everyDay, inside, rfl, rfl, by decide,
    by decide⟩

end Schedule

end Workplan
