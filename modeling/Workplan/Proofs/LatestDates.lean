/-
# Workplan.Proofs.LatestDates — what the way back through a plan computes

Going back through the order of a plan, a task comes after all that it leads to, so it finds their latest
dates, and these stay. What is computed in the end is therefore a solution of the equations that every
step solves for one task: the latest finish is the earliest of the end of the plan, the finish of the
container and the limits that links set, and the latest start lies a length before it.

* `WalksBack.cons`, `walksBack_foldl` — one step, and the steps of a list of tasks;
* `le_latestFinish_iff` — the latest finish, by all that limits it;
* `compute_spec` — the latest dates of a coherent plan, and which tasks are critical.
-/
import Workplan.Critical
import Workplan.Proofs.Demands

namespace Workplan.CriticalPath

set_option autoImplicit false

/-! ## One task after another -/

section Steps

variable {flow : Flow} {o : Outline} {cal : Calendar} {planEnd : Date}

theorem arcLimit?_congr {path other : CriticalPath} {arc : Arc}
    (same : path.latest? arc.target = other.latest? arc.target) :
    arcLimit? o cal path arc = arcLimit? o cal other arc := by
  simp only [arcLimit?, same]

theorem overflows_congr {path other : CriticalPath} {id : TaskId}
    (same : ∀ later, flow.Leads id later → path.latest? later = other.latest? later) :
    (flow.outgoing id).any (arcOverflows o cal path) =
      (flow.outgoing id).any (arcOverflows o cal other) := by
  rw [Bool.eq_iff_iff, List.any_eq_true, List.any_eq_true]
  refine exists_congr fun arc => and_congr_right fun member => ?_
  obtain ⟨known, source⟩ := Flow.mem_outgoing.mp member
  rw [arcOverflows, arcLimit?_congr (same arc.target ⟨arc, known, source, rfl⟩), arcOverflows]

/-- The latest finish of a task depends on the latest dates of the tasks that it leads to. -/
theorem latestFinish_congr {path other : CriticalPath} {id : TaskId}
    (same : ∀ later, flow.Leads id later → path.latest? later = other.latest? later)
    (upwards : ∀ container, o.container id = some container → flow.Leads id container) :
    latestFinish flow o cal planEnd path id = latestFinish flow o cal planEnd other id := by
  have limits : (flow.outgoing id).filterMap (arcLimit? o cal path) =
      (flow.outgoing id).filterMap (arcLimit? o cal other) := by
    refine List.filterMap_congr fun arc member => ?_
    obtain ⟨known, source⟩ := Flow.mem_outgoing.mp member
    exact arcLimit?_congr (same arc.target ⟨arc, known, source, rfl⟩)
  have outer : (o.container id).bind path.latest? = (o.container id).bind other.latest? := by
    cases found : o.container id with
    | none => rfl
    | some container => exact same container (upwards container found)
  rw [latestFinish, limits, outer, latestFinish]

/-- The latest dates of a task by those of the tasks that it leads to. -/
def latestDates (flow : Flow) (o : Outline) (cal : Calendar) (planEnd : Date) (path : CriticalPath)
    (task : Task) : LatestDates :=
  let finish := latestFinish flow o cal planEnd path task.id
  ⟨cal.shift finish (-task.span.length cal), finish⟩

variable (flow cal planEnd) in
theorem latest?_step {path : CriticalPath} {id : TaskId} {task : Task}
    (found : o.task? id = some task) (fresh : path.latest? id = none) (x : TaskId) :
    (step flow o cal planEnd path id).latest? x =
      if x = id then some (latestDates flow o cal planEnd path task) else path.latest? x := by
  simp only [step, found, latest?, List.lookup_append, latestDates, Outline.id_of_task? found]
  split
  · rename_i same
    rw [latest?] at fresh
    rw [same, fresh]
    simp
  · rename_i differ
    have apart : (x == id) = false := by simpa using differ
    simp [List.lookup_cons, apart]

variable (flow cal planEnd) in
theorem mem_critical_step (path : CriticalPath) {id : TaskId} {task : Task}
    (found : o.task? id = some task) (x : TaskId) :
    x ∈ (step flow o cal planEnd path id).critical ↔ x ∈ path.critical ∨
      x = id ∧ (latestDates flow o cal planEnd path task).start = task.start := by
  simp only [step, found, latestDates, Outline.id_of_task? found]
  split <;> rename_i critical <;> simp [critical]

variable (flow cal planEnd) in
theorem overflows_step (path : CriticalPath) {id : TaskId} {task : Task}
    (found : o.task? id = some task) : (step flow o cal planEnd path id).overflows =
      (path.overflows || (flow.outgoing id).any (arcOverflows o cal path)) := by
  simp only [step, found]

/-- What the steps of a list make of a path: what was there stays, the dates of the tasks in the list
solve their equations at the end, and the lags negated on the way are those of the arcs from these
tasks. -/
structure WalksBack (flow : Flow) (o : Outline) (cal : Calendar) (planEnd : Date) (list : List TaskId)
    (path final : CriticalPath) : Prop where
  others : ∀ x, x ∉ list → final.latest? x = path.latest? x ∧
    (x ∈ final.critical ↔ x ∈ path.critical)
  placed : ∀ id ∈ list, ∃ task, o.task? id = some task ∧
    final.latest? id = some (latestDates flow o cal planEnd final task) ∧
    (id ∈ final.critical ↔ (latestDates flow o cal planEnd final task).start = task.start)
  overflows : final.overflows = (path.overflows ||
    list.any fun id => (flow.outgoing id).any (arcOverflows o cal final))

/-- The step of a task that leads to none of the tasks after it. What it leads to has its dates already
and keeps them, so the task solves its equation at the end as it does at its step. -/
theorem WalksBack.cons {path final : CriticalPath} {id : TaskId} {rest : List TaskId} {task : Task}
    (walks : WalksBack flow o cal planEnd rest (step flow o cal planEnd path id) final)
    (found : o.task? id = some task) (fresh : path.latest? id = none ∧ id ∉ path.critical)
    (notLater : id ∉ rest) (first : ∀ later ∈ rest, ¬ flow.Leads id later)
    (noLoop : ¬ flow.Leads id id)
    (upwards : ∀ container, o.container id = some container → flow.Leads id container) :
    WalksBack flow o cal planEnd (id :: rest) path final := by
  have lookup := latest?_step flow cal planEnd found fresh.1
  have critical := mem_critical_step flow cal planEnd path found
  have kept : ∀ later, flow.Leads id later → path.latest? later = final.latest? later := by
    intro later leads
    have differ : later ≠ id := fun same => noLoop (same ▸ leads)
    have notRest : later ∉ rest := fun inside => first later inside leads
    rw [(walks.others later notRest).1, lookup, if_neg differ]
  have same : latestDates flow o cal planEnd path task = latestDates flow o cal planEnd final task := by
    simp only [latestDates, Outline.id_of_task? found, latestFinish_congr kept upwards]
  refine ⟨fun x outside => ?_, fun x member => ?_, ?_⟩
  · obtain ⟨differ, notRest⟩ := not_or.mp (List.mem_cons.not.mp outside)
    obtain ⟨stays, staysCritical⟩ := walks.others x notRest
    exact ⟨by rw [stays, lookup, if_neg differ], by rw [staysCritical, critical]; simp [differ]⟩
  · rcases List.mem_cons.mp member with rfl | later
    · obtain ⟨stays, staysCritical⟩ := walks.others x notLater
      refine ⟨task, found, by rw [stays, lookup, if_pos rfl, same], ?_⟩
      rw [staysCritical, critical, same]
      simp [fresh.2]
    · exact walks.placed x later
  · rw [walks.overflows, overflows_step flow cal planEnd path found, overflows_congr kept,
      Bool.or_assoc, List.any_cons]

/-- The steps of a list in which no task leads to a later one. -/
theorem walksBack_foldl (cal : Calendar) (planEnd : Date) {list : List TaskId} (nodup : list.Nodup)
    (sorted : list.Pairwise fun earlier later => ¬ flow.Leads earlier later)
    (noLoop : ∀ task, ¬ flow.Leads task task)
    (upwards : ∀ id container, o.container id = some container → flow.Leads id container)
    (known : ∀ id ∈ list, id ∈ o.ids) (path : CriticalPath)
    (fresh : ∀ id ∈ list, path.latest? id = none ∧ id ∉ path.critical) :
    WalksBack flow o cal planEnd list path (list.foldl (step flow o cal planEnd) path) := by
  induction list generalizing path with
  | nil => exact ⟨fun _ _ => ⟨rfl, .rfl⟩, by simp, by simp⟩
  | cons id rest ih =>
    obtain ⟨notLater, nodupRest⟩ := List.nodup_cons.mp nodup
    obtain ⟨first, sortedRest⟩ := List.pairwise_cons.mp sorted
    have freshHere := fresh id List.mem_cons_self
    obtain ⟨task, found⟩ := Outline.exists_task?_iff.mpr (known id List.mem_cons_self)
    have freshRest : ∀ x ∈ rest, (step flow o cal planEnd path id).latest? x = none ∧
        x ∉ (step flow o cal planEnd path id).critical := by
      intro x later
      have differ : x ≠ id := fun same => notLater (same ▸ later)
      obtain ⟨none, notYet⟩ := fresh x (List.mem_cons_of_mem _ later)
      constructor
      · rw [latest?_step flow cal planEnd found freshHere.1, if_neg differ, none]
      · simp [mem_critical_step flow cal planEnd path found, differ, notYet]
    have walks := ih nodupRest sortedRest (fun x later => known x (List.mem_cons_of_mem _ later))
      (step flow o cal planEnd path id) freshRest
    exact walks.cons found freshHere notLater first (noLoop id) (upwards id)

end Steps

/-! ## What limits the latest finish -/

theorem le_foldl_min {list : List Date} {limit d : Date} :
    d ≤ list.foldl min limit ↔ d ≤ limit ∧ ∀ date ∈ list, d ≤ date := by
  induction list generalizing limit with
  | nil => simp
  | cons date rest ih => simp [ih, Window.le_min_iff, and_assoc]

section Plan

variable {o : Outline} {net : Network} {cal : Calendar} {planEnd : Date} {path : CriticalPath}
  {id : TaskId}

/-- The latest finishes that links from a task allow it, each for the latest start of one of the tasks
on which the link bears. -/
def linkLimits (o : Outline) (net : Network) (cal : Calendar) (path : CriticalPath) (id : TaskId) :
    Set Date :=
  {date | ∃ link ∈ net.links, link.dependee = id ∧ ∃ later, o.hierarchy.Under later link.dependant ∧
    ∃ dates dependee own, path.latest? later = some dates ∧ o.span? id = some dependee ∧
      o.span? later = some own ∧
      date = link.relation.latestFinish dependee own link.lag.days dates.start cal}

theorem mem_outgoing_link (forest : o.hierarchy.IsForest) (lies : net.LiesOn o.hierarchy)
    {link : Link} {later : TaskId} :
    (∃ arc ∈ (Flow.ofPlan o net).outgoing id, arc.target = later ∧ arc.link? = some link) ↔
      ∃ cause ∈ net.links, cause.dependee = id ∧ o.hierarchy.Under later cause.dependant ∧
        link = cause.retarget later := by
  simp only [Flow.mem_outgoing, Flow.mem_arcs_ofPlan, Flow.mem_containmentArcs, Flow.mem_linkArcs,
    forest.mem_descendants_iff]
  constructor
  · rintro ⟨⟨source, target, cause⟩, ⟨⟨arrow, -⟩, rfl⟩, rfl, told⟩
    rcases arrow with ⟨-, -, rfl⟩ | ⟨link, member, rfl, ⟨rfl, rfl⟩ | ⟨inside, rfl⟩⟩
    · contradiction
    · exact ⟨link, member, rfl, .inl rfl, (Option.some.inj told).symm⟩
    · exact ⟨link, member, rfl, .inr inside, (Option.some.inj told).symm⟩
  · rintro ⟨cause, member, rfl, under, rfl⟩
    obtain ⟨dependant, dependee⟩ := lies _ (Network.contains_of_mem member)
    rcases under with rfl | inside
    · exact ⟨⟨cause.dependee, cause.dependant, .explicit cause⟩,
        ⟨⟨.inr ⟨cause, member, rfl, .inl ⟨rfl, rfl⟩⟩, dependee, dependant⟩, rfl⟩, rfl, rfl⟩
    · have known := Outline.contains_iff.mpr (forest.mem_tasks_of_inside inside).1
      exact ⟨⟨cause.dependee, later, .inherited cause⟩,
        ⟨⟨.inr ⟨cause, member, rfl, .inr ⟨inside, rfl⟩⟩, dependee, known⟩, rfl⟩, rfl, rfl⟩

theorem backward?_eq_some_iff {link : Link} {candidate : Date} {span? : TaskId → Option Span}
    {collision : Collision} : link.backward? candidate span? cal = some collision ↔
      ∃ dependee dependant, span? link.dependee = some dependee ∧
        span? link.dependant = some dependant ∧
        collision = link.relation.backward dependee dependant link.lag.days candidate cal := by
  unfold Link.backward? Link.binding?
  cases span? link.dependee with
  | none => simp
  | some dependee =>
    cases span? link.dependant with
    | none => simp
    | some dependant => simp [eq_comm]

theorem arcLimit?_eq_some_iff {arc : Arc} {date : Date} : arcLimit? o cal path arc = some date ↔
    ∃ link, arc.link? = some link ∧ ∃ dates, path.latest? arc.target = some dates ∧
      ∃ collision, link.backward? dates.start o.span? cal = some collision ∧
        collision.acceptable = date := by
  simp only [arcLimit?, Option.bind_eq_bind, Option.bind_eq_some_iff, Option.pure_def,
    Option.some.injEq]

theorem mem_linkLimits (forest : o.hierarchy.IsForest) (lies : net.LiesOn o.hierarchy)
    {date : Date} : date ∈ linkLimits o net cal path id ↔
      ∃ arc ∈ (Flow.ofPlan o net).outgoing id, arcLimit? o cal path arc = some date := by
  simp only [arcLimit?_eq_some_iff]
  constructor
  · rintro ⟨cause, member, rfl, later, under, dates, dependee, own, latest, first, second, rfl⟩
    obtain ⟨arc, leaves, rfl, told⟩ := (mem_outgoing_link forest lies).mpr
      ⟨cause, member, rfl, under, rfl⟩
    exact ⟨arc, leaves, _, told, dates, latest, _,
      backward?_eq_some_iff.mpr ⟨dependee, own, first, second, rfl⟩, rfl⟩
  · rintro ⟨arc, leaves, link, told, dates, latest, collision, found, rfl⟩
    obtain ⟨cause, member, rfl, under, rfl⟩ := (mem_outgoing_link forest lies).mp
      ⟨arc, leaves, rfl, told⟩
    obtain ⟨dependee, own, first, second, rfl⟩ := backward?_eq_some_iff.mp found
    exact ⟨cause, member, rfl, arc.target, under, dates, dependee, own, latest, first, second, rfl⟩

/-- The latest finish is the earliest of the end of the plan, the limits that links set, and the latest
finish of the container. -/
theorem le_latestFinish_iff (forest : o.hierarchy.IsForest) (lies : net.LiesOn o.hierarchy)
    {d : Date} : d ≤ latestFinish (Flow.ofPlan o net) o cal planEnd path id ↔
      d ≤ planEnd ∧ (∀ date ∈ linkLimits o net cal path id, d ≤ date) ∧
        ∀ container dates, o.container id = some container → path.latest? container = some dates →
          d ≤ dates.finish := by
  rw [latestFinish, le_foldl_min]
  simp only [List.mem_append, List.mem_filterMap, mem_linkLimits forest lies, Option.mem_toList,
    Option.map_eq_some_iff, Option.bind_eq_some_iff, or_imp, forall_and]
  constructor
  · rintro ⟨early, limits, outer⟩
    exact ⟨early, limits, fun container dates found latest =>
      outer dates.finish ⟨dates, ⟨container, found, latest⟩, rfl⟩⟩
  · rintro ⟨early, limits, outer⟩
    refine ⟨early, limits, ?_⟩
    rintro _ ⟨dates, ⟨container, found, latest⟩, rfl⟩
    exact outer container dates found latest

/-! ## The end of a plan -/

theorem mem_tasks {task : Task} : task ∈ o.tasks ↔ ∃ id, o.task? id = some task := by
  rw [Outline.tasks, List.mem_map]
  constructor
  · rintro ⟨node, member, rfl⟩
    have found : o.node? node.id = some node := Catalog.find?_eq_some_iff.mpr ⟨member, rfl⟩
    exact ⟨node.id, by rw [Outline.task?, found, Option.map_some]⟩
  · rintro ⟨id, found⟩
    obtain ⟨node, there, rfl⟩ := Option.map_eq_some_iff.mp found
    exact ⟨node, (Catalog.mem_of_find? there).1, rfl⟩

/-- A plan with tasks ends with the last of them. -/
theorem finish?_spec (nonempty : o.ids ≠ []) : ∃ planEnd, o.finish? = some planEnd ∧
    (∃ id task, o.task? id = some task ∧ task.finish = planEnd) ∧
      ∀ id task, o.task? id = some task → task.finish ≤ planEnd := by
  obtain ⟨id, known⟩ := List.exists_mem_of_ne_nil _ nonempty
  obtain ⟨task, found⟩ := Outline.exists_task?_iff.mpr known
  have member := List.mem_map_of_mem (f := Task.finish) (mem_tasks.mpr ⟨id, found⟩)
  obtain ⟨planEnd, ends⟩ :=
    Option.isSome_iff_exists.mp (List.isSome_max?_iff.mpr (List.ne_nil_of_mem member))
  obtain ⟨reached, latest⟩ := List.max?_eq_some_iff.mp ends
  obtain ⟨last, lastMember, finishes⟩ := List.mem_map.mp reached
  obtain ⟨lastId, lastFound⟩ := mem_tasks.mp lastMember
  exact ⟨planEnd, ends, ⟨lastId, last, lastFound, finishes⟩, fun id task found =>
    latest _ (List.mem_map_of_mem (mem_tasks.mpr ⟨id, found⟩))⟩

/-! ## The whole way back -/

/-- The latest dates of every task solve their equation, a task is critical if it cannot start later
than it does, and lags are negated for the arcs from all tasks. -/
structure Solves (o : Outline) (net : Network) (cal : Calendar) (planEnd : Date)
    (path : CriticalPath) : Prop where
  latest : ∀ id task, o.task? id = some task → path.latest? id =
    some (latestDates (Flow.ofPlan o net) o cal planEnd path task)
  unknown : ∀ id, id ∉ o.ids → path.latest? id = none ∧ id ∉ path.critical
  critical : ∀ id task dates, o.task? id = some task → path.latest? id = some dates →
    (id ∈ path.critical ↔ dates.start = task.start)
  overflows : path.overflows = true ↔ ∃ id ∈ o.ids,
    ∃ arc ∈ (Flow.ofPlan o net).outgoing id, arcOverflows o cal path arc = true

section Solves

variable {task : Task} {dates : LatestDates}

theorem Solves.exists_task? (solves : Solves o net cal planEnd path)
    (latest : path.latest? id = some dates) : ∃ task, o.task? id = some task := by
  by_contra none
  rw [(solves.unknown id fun known => none (Outline.exists_task?_iff.mpr known)).1] at latest
  contradiction

theorem Solves.start_eq (solves : Solves o net cal planEnd path) (found : o.task? id = some task)
    (latest : path.latest? id = some dates) :
    dates.start = cal.shift dates.finish (-task.span.length cal) := by
  cases latest.symm.trans (solves.latest id task found)
  rfl

theorem Solves.le_finish_iff (solves : Solves o net cal planEnd path) (coherent : Coherent o net)
    (latest : path.latest? id = some dates) {d : Date} : d ≤ dates.finish ↔
      d ≤ planEnd ∧ (∀ date ∈ linkLimits o net cal path id, d ≤ date) ∧
        ∀ container outer, o.container id = some container → path.latest? container = some outer →
          d ≤ outer.finish := by
  obtain ⟨task, found⟩ := solves.exists_task? latest
  cases latest.symm.trans (solves.latest id task found)
  rw [latestDates, Outline.id_of_task? found]
  exact le_latestFinish_iff coherent.forest coherent.liesOn

theorem Solves.finish_le (solves : Solves o net cal planEnd path) (coherent : Coherent o net)
    (latest : path.latest? id = some dates) : dates.finish ≤ planEnd :=
  ((solves.le_finish_iff coherent latest).mp (Std.le_refl _)).1

end Solves

/-- The way back through a coherent plan makes no error. -/
theorem compute_spec (coherent : Coherent o net) (cal : Calendar)
    (ends : o.finish? = some planEnd) :
    ∃ path, compute o net cal = .ok path ∧ Solves o net cal planEnd path := by
  have closed := closed_ofPlan net coherent.forest
  obtain ⟨order, done⟩ :=
    (exists_order_iff_acyclic coherent.forest coherent.liesOn).mpr coherent.acyclic
  have sorted := Flow.order_isSorted closed done
  have upwards : ∀ id container, o.container id = some container →
      (Flow.ofPlan o net).Leads id container := by
    intro id container found
    rw [leads_ofPlan coherent.forest coherent.liesOn]
    exact .containment found
  have listed : ∀ id, id ∈ order.reverse ↔ id ∈ o.ids := fun id =>
    List.mem_reverse.trans sorted.mem_iff
  obtain ⟨others, placed, overflows⟩ := walksBack_foldl cal planEnd
    (List.nodup_reverse.mpr (sorted.perm.nodup_iff.mpr closed.nodup_tasks))
    (List.pairwise_reverse.mpr sorted.pairwise) sorted.not_leads_self upwards
    (fun id member => (listed id).mp member) {} (by simp [latest?])
  generalize walk :
    order.reverse.foldl (step (Flow.ofPlan o net) o cal planEnd) {} = path at others placed overflows
  refine ⟨{ path with critical := (TaskSet.ofList path.critical).entries }, ?_,
    fun id task found => ?_, fun id unknown => ?_, fun id task dates found latest => ?_, ?_⟩
  · simp only [compute, ends, done, walk]
  · obtain ⟨_, there, latest, -⟩ := placed id
      ((listed id).mpr (Outline.exists_task?_iff.mp ⟨task, found⟩))
    cases there.symm.trans found
    exact latest
  · obtain ⟨none, notCritical⟩ := others id ((listed id).not.mpr unknown)
    exact ⟨none, by rw [TaskSet.mem_ofList, notCritical]; exact List.not_mem_nil⟩
  · obtain ⟨_, there, solved, critical⟩ := placed id
      ((listed id).mpr (Outline.exists_task?_iff.mp ⟨task, found⟩))
    cases there.symm.trans found
    cases solved.symm.trans latest
    rw [TaskSet.mem_ofList, critical]
  · rw [overflows, Bool.false_or]
    simp only [List.any_eq_true, listed]
    rfl

end Plan

end Workplan.CriticalPath
