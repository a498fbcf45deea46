/-
# Workplan.Proofs.PassOrder — the order of a pass makes no difference

A pass goes through the tasks in one order of many, and through the arcs into each task in the order
in which they were added. Neither order shows in what comes of it:

* `bind_intersect_comm` — windows leave the same dates, or none, whichever is taken first;
* `foldl_demand_perm` — so the arcs into a task ask the same of it in any order;
* `placeAll_reports` — what a pass reports and what it changes are the same tasks;
* `Passes.same` — two passes that read the same place every task alike, by induction along the plan;
* `pass_order_spec` — so any order of the tasks and of the arcs gives the dates and the report of a
  pass, and so does any order of the tasks nested in a container.
-/
import Workplan.Proofs.Settling

namespace Workplan

set_option autoImplicit false

/-! ## Windows -/

namespace Window

/-- The bounds of two windows together. -/
def join (v w : Window) : Window := ⟨joinLower v.lower w.lower, joinUpper v.upper w.upper⟩

/-- The window, if its bounds have not crossed. -/
def uncrossed (w : Window) : Option Window :=
  match w.lower, w.upper with
  | some l, some u => if u < l then none else some w
  | _, _ => some w

theorem intersect_eq (v w : Window) : v.intersect w = (v.join w).uncrossed := rfl

theorem uncrossed_eq_none_iff {w : Window} :
    w.uncrossed = none ↔ ∃ l u, w.lower = some l ∧ w.upper = some u ∧ u < l := by
  unfold uncrossed
  split
  · rename_i l u lower upper
    split <;> simp_all
  · rename_i notBoth
    simp only [reduceCtorEq, false_iff]
    rintro ⟨l, u, lower, upper, -⟩
    exact notBoth l u lower upper

theorem uncrossed_eq_some {w kept : Window} (same : w.uncrossed = some kept) : kept = w := by
  unfold uncrossed at same
  split at same
  · split at same
    · contradiction
    · exact (Option.some.inj same).symm
  · exact (Option.some.inj same).symm

/-- More bounds only bring the two ends closer. -/
theorem uncrossed_join_of_crossed {w : Window} (crossed : w.uncrossed = none) (v : Window) :
    (w.join v).uncrossed = none := by
  obtain ⟨l, u, lower, upper, less⟩ := uncrossed_eq_none_iff.mp crossed
  obtain ⟨l', lowerJoin, above⟩ : ∃ l', joinLower w.lower v.lower = some l' ∧ l ≤ l' := by
    rw [lower]
    cases v.lower with
    | none => exact ⟨l, rfl, Std.le_refl l⟩
    | some m => exact ⟨max l m, rfl, (max_le_iff.mp (Std.le_refl _)).1⟩
  obtain ⟨u', upperJoin, below⟩ : ∃ u', joinUpper w.upper v.upper = some u' ∧ u' ≤ u := by
    rw [upper]
    cases v.upper with
    | none => exact ⟨u, rfl, Std.le_refl u⟩
    | some m => exact ⟨min u m, rfl, (le_min_iff.mp (Std.le_refl _)).1⟩
  exact uncrossed_eq_none_iff.mpr ⟨l', u', lowerJoin, upperJoin,
    Std.lt_of_le_of_lt below (Std.lt_of_lt_of_le less above)⟩

theorem uncrossed_bind (w v : Window) :
    (w.uncrossed.bind fun kept => kept.intersect v) = (w.join v).uncrossed := by
  cases kept : w.uncrossed with
  | none => exact (uncrossed_join_of_crossed kept v).symm
  | some other =>
    rw [uncrossed_eq_some kept]
    rfl

theorem max_comm (a b : Date) : max a b = max b a := by
  have swap : ∀ x y : Date, max x y ≤ max y x := fun x y =>
    max_le_iff.mpr (max_le_iff.mp (Std.le_refl (max y x))).symm
  exact Std.le_antisymm (swap a b) (swap b a)

theorem min_comm (a b : Date) : min a b = min b a := by
  have swap : ∀ x y : Date, min x y ≤ min y x := fun x y =>
    le_min_iff.mpr (le_min_iff.mp (Std.le_refl (min x y))).symm
  exact Std.le_antisymm (swap a b) (swap b a)

theorem joinLower_right_comm (a b c : Option Date) :
    joinLower (joinLower a b) c = joinLower (joinLower a c) b := by
  have swap : ∀ x y z : Date, max (max x y) z = max (max x z) y := by
    intro x y z
    have assoc : ∀ x y z : Date, max (max x y) z = max x (max y z) := Std.Associative.assoc
    rw [assoc, max_comm y z, assoc]
  cases a <;> cases b <;> cases c <;> simp [joinLower, max_comm, swap]

theorem joinUpper_right_comm (a b c : Option Date) :
    joinUpper (joinUpper a b) c = joinUpper (joinUpper a c) b := by
  have swap : ∀ x y z : Date, min (min x y) z = min (min x z) y := by
    intro x y z
    have assoc : ∀ x y z : Date, min (min x y) z = min x (min y z) := Std.Associative.assoc
    rw [assoc, min_comm y z, assoc]
  cases a <;> cases b <;> cases c <;> simp [joinUpper, min_comm, swap]

/-- Which of two windows comes first makes no difference to what they leave, nor to whether they leave
anything. -/
theorem bind_intersect_comm (w : Option Window) (u v : Window) :
    (w.bind (·.intersect u)).bind (·.intersect v) =
      (w.bind (·.intersect v)).bind (·.intersect u) := by
  cases w with
  | none => rfl
  | some w =>
    have joined : (w.join u).join v = (w.join v).join u := by
      simp only [join, joinLower_right_comm w.lower, joinUpper_right_comm w.upper]
    simp only [Option.bind_some, intersect_eq w, uncrossed_bind, joined]

end Window

/-! ## Arcs -/

/-- The same windows, and the dates of subtasks in any order. -/
structure Demands.Alike (d e : Demands) : Prop where
  strong : e.strong = d.strong
  weak : e.weak = d.weak
  subtaskDates : e.subtaskDates.Perm d.subtaskDates

theorem Demands.Alike.subtaskDates_eq_nil_iff {d e : Demands} (alike : d.Alike e) :
    e.subtaskDates = [] ↔ d.subtaskDates = [] := by
  rw [← List.isEmpty_iff, alike.subtaskDates.isEmpty_eq, List.isEmpty_iff]

namespace Schedule

open Window

theorem hold_right_comm (w : Option Window) (a b : Option Date) :
    hold (hold w a) b = hold (hold w b) a := by
  cases a <;> cases b <;> simp [hold, bind_intersect_comm w]

section Demands

variable {d e : Demands}

theorem covered_alike (alike : d.Alike e) (task : Task) :
    covered e task = covered d task := by
  have member : ∀ date, date ∈ e.subtaskDates ↔ date ∈ d.subtaskDates := fun _ =>
    alike.subtaskDates.mem_iff
  have first : e.subtaskDates.min? = d.subtaskDates.min? := by
    ext date
    simp only [List.min?_eq_some_iff, member]
  have last : e.subtaskDates.max? = d.subtaskDates.max? := by
    ext date
    simp only [List.max?_eq_some_iff, member]
  rw [covered, covered, first, last]

theorem startWindow_alike (alike : d.Alike e) (task : Task) :
    startWindow e task = startWindow d task := by
  simp only [startWindow, covered_alike alike, alike.strong, alike.weak, alike.subtaskDates_eq_nil_iff]

theorem placedAt_alike (alike : d.Alike e) (cal : Calendar) (isLeaf : Bool) (task : Task) :
    placedAt cal e isLeaf task = placedAt cal d isLeaf task := by
  funext start
  simp only [placedAt, covered_alike alike, alike.subtaskDates_eq_nil_iff]

end Demands

/-- The windows and the dates that a list of arcs leaves, each collected for itself. -/
theorem foldl_demand_eq (o : Outline) (cal : Calendar) (task : TaskId) (arcs : List Arc)
    (d : Demands) : arcs.foldl (demand o cal task) d =
      ⟨(arcs.map (strongDate? o cal)).foldl hold d.strong,
        (arcs.map (weakDate? o cal task)).foldl hold d.weak,
        d.subtaskDates ++ arcs.flatMap (subtaskDates o)⟩ := by
  induction arcs generalizing d with
  | nil => simp
  | cons arc rest ih =>
    rw [List.foldl_cons, demand_eq, ih]
    simp

/-- Arcs ask the same in any order. -/
theorem foldl_demand_perm (o : Outline) (cal : Calendar) (task : TaskId) {arcs other : List Arc}
    (perm : other.Perm arcs) (d : Demands) :
    (arcs.foldl (demand o cal task) d).Alike (other.foldl (demand o cal task) d) := by
  have held : ∀ (date? : Arc → Option Date) (w : Option Window),
      (other.map date?).foldl hold w = (arcs.map date?).foldl hold w := fun date? w =>
    (perm.map date?).foldl_eq' (fun a _ b _ w => hold_right_comm w a b) w
  rw [foldl_demand_eq, foldl_demand_eq]
  exact ⟨held _ _, held _ _, (perm.flatMap_right _).append_left _⟩

section Plan

variable {o : Outline} {net : Network} {cal : Calendar} {id : TaskId} {flow : Flow}

theorem forward?_congr {a b : Outline} {link : Link} (cal : Calendar)
    (dependee : b.task? link.dependee = a.task? link.dependee)
    (dependant : b.task? link.dependant = a.task? link.dependant) :
    link.forward? b.span? cal = link.forward? a.span? cal := by
  rw [Link.forward?, Link.binding?, Outline.span?_congr dependee, Outline.span?_congr dependant]
  rfl

/-- The link of an arc joins the tasks that the arc joins. -/
theorem ends_of_link? {arc : Arc} (member : arc ∈ (Flow.ofPlan o net).arcs) {link : Link}
    (stands : arc.link? = some link) :
    link.dependee = arc.source ∧ link.dependant = arc.target := by
  obtain ⟨inPlan, -⟩ := Flow.mem_arcs_ofPlan.mp member
  simp only [Flow.mem_containmentArcs, Flow.mem_linkArcs] at inPlan
  unfold Arc.link? at stands
  cases cause : arc.cause with
  | containment => simp [cause] at stands
  | explicit own =>
    obtain ⟨-, source, target⟩ : own ∈ net.toList ∧ arc.source = own.dependee ∧
        arc.target = own.dependant := by simpa [cause] using inPlan
    rw [cause] at stands
    cases stands
    exact ⟨source.symm, target.symm⟩
  | inherited outer =>
    obtain ⟨-, source, -⟩ : outer ∈ net.toList ∧ arc.source = outer.dependee ∧
        arc.target ∈ o.hierarchy.descendants outer.dependant := by simpa [cause] using inPlan
    rw [cause] at stands
    cases stands
    exact ⟨source.symm, rfl⟩

/-- An arc of a plan is read in its source and its target alone. -/
theorem demand_congr {a b : Outline} {arc : Arc} (member : arc ∈ (Flow.ofPlan o net).incoming id)
    (source : b.task? arc.source = a.task? arc.source) (own : b.task? id = a.task? id)
    (d : Demands) : demand b cal id d arc = demand a cal id d arc := by
  obtain ⟨inPlan, rfl⟩ := Flow.mem_incoming.mp member
  have tested : ∀ link, arc.link? = some link →
      link.forward? b.span? cal = link.forward? a.span? cal := by
    intro link stands
    obtain ⟨dependee, dependant⟩ := ends_of_link? inPlan stands
    exact forward?_congr cal (dependee ▸ source) (dependant ▸ own)
  unfold demand
  unfold Arc.link? at tested
  cases cause : arc.cause with
  | containment => simp only [source]
  | explicit link => simp only [tested link (by rw [cause])]
  | inherited link => simp only [tested _ (by rw [cause])]

/-- A task is asked the same where it and all that lead to it are the same. -/
theorem demands_alike {a b : Outline}
    (arcs : (flow.incoming id).Perm ((Flow.ofPlan o net).incoming id))
    (sources : ∀ source, (Flow.ofPlan o net).Leads source id → b.task? source = a.task? source)
    (own : b.task? id = a.task? id) :
    (demands (Flow.ofPlan o net) a cal id).Alike (demands flow b cal id) := by
  have same : demands (Flow.ofPlan o net) b cal id = demands (Flow.ofPlan o net) a cal id := by
    refine List.foldl_ext _ _ _ fun d arc member => ?_
    obtain ⟨inPlan, target⟩ := Flow.mem_incoming.mp member
    exact demand_congr member (sources _ ⟨arc, inPlan, rfl, target⟩) own d
  rw [← same]
  exact foldl_demand_perm b cal id arcs {}

/-! ## Reports -/

section Unmodified

variable {placed : Outline} {outcome : Outcome}

theorem placeLeaf_unmodified {task : Task} {start : Window}
    (done : placeLeaf o cal task start = .ok (placed, outcome)) (kept : outcome ≠ .modified) :
    placed = o := by
  unfold placeLeaf at done
  split at done
  · cases done
    rfl
  · split at done
    · cases done
      rfl
    · obtain ⟨_, -, same⟩ := exists_ok_of_map done
      cases same
      contradiction

theorem placeContainer_unmodified {task : Task} {start : Window} {finish : Option Date}
    (done : placeContainer o task start finish = .ok (placed, outcome))
    (kept : outcome ≠ .modified) : placed = o := by
  simp only [placeContainer] at done
  split at done
  · cases done
    rfl
  · obtain ⟨_, -, same⟩ := exists_ok_of_map done
    cases same
    contradiction

theorem placeTask_unmodified (done : placeTask flow cal o id = .ok (placed, outcome))
    (kept : outcome ≠ .modified) : placed = o := by
  unfold placeTask at done
  split at done
  · cases done
    rfl
  · simp only at done
    split at done
    · cases done
      rfl
    · split at done
      · exact placeLeaf_unmodified done kept
      · exact placeContainer_unmodified done kept

theorem task?_placeTask
    (done : placeTask flow cal o id = .ok (placed, outcome)) {x : TaskId} (other : x ≠ id) :
    placed.task? x = o.task? x := by
  cases found : o.task? id with
  | none =>
    rw [placeTask, found] at done
    cases done
    rfl
  | some task =>
    obtain ⟨_, _, same, -, -, tasks⟩ := placeTask_spec cal flow found
    cases done.symm.trans same
    rw [tasks, if_neg other]

end Unmodified

/-- A run of turns reports tasks in its order, each at most once for each turn, and changes none that it
does not report as modified. -/
theorem placeAll_reports {list : List TaskId} {final : Outline} {before report : ScheduleReport}
    (done : placeAll flow cal list o before = (final, .ok report)) :
    ∃ modified skipped, report = ⟨before.modified ++ modified, before.skipped ++ skipped⟩ ∧
      modified.Sublist list ∧ skipped.Sublist list ∧
      ∀ x, x ∉ modified → final.task? x = o.task? x := by
  induction list generalizing o before with
  | nil =>
    cases done
    exact ⟨[], [], by simp, .refl _, .refl _, fun _ _ => rfl⟩
  | cons id rest ih =>
    simp only [placeAll] at done
    split at done
    · cases done
    · rename_i placed outcome turn
      obtain ⟨modified, skipped, rfl, inOrder, skippedInOrder, kept⟩ := ih done
      cases outcome with
      | unchanged =>
        rw [placeTask_unmodified turn (by decide)] at kept
        exact ⟨modified, skipped, rfl, inOrder.cons id, skippedInOrder.cons id, kept⟩
      | skipped =>
        rw [placeTask_unmodified turn (by decide)] at kept
        exact ⟨modified, id :: skipped, by simp [ScheduleReport.note], inOrder.cons id,
          skippedInOrder.cons_cons id, kept⟩
      | modified =>
        refine ⟨id :: modified, skipped, by simp [ScheduleReport.note], inOrder.cons_cons id,
          skippedInOrder.cons id, fun x outside => ?_⟩
        obtain ⟨other, later⟩ := not_or.mp (List.mem_cons.not.mp outside)
        rw [kept x later, task?_placeTask turn other]

/-! ## Two passes -/

/-- Two passes that find the same tasks in the same containers, and read the same arcs, leave the same
tasks and skip the same. By induction along the plan: at its turn a task finds all that comes before
it as it stays, which is the same in both. -/
theorem Passes.same {other final placed : Outline} {report told : ScheduleReport}
    (acyclic : Acyclic (Flow.ofPlan o net).Leads)
    (pass : Passes (Flow.ofPlan o net) cal o.ids o final {} report)
    (second : Passes flow cal other.ids other placed {} told)
    (arcs : ∀ id, (flow.incoming id).Perm ((Flow.ofPlan o net).incoming id))
    (tasks : ∀ id, other.task? id = o.task? id)
    (nested : ∀ id, (other.nested id).isEmpty = (o.nested id).isEmpty) (id : TaskId) :
    placed.task? id = final.task? id ∧ (id ∈ told.skipped ↔ id ∈ report.skipped) := by
  induction id using acyclic.wellFounded.induction with
  | h id ih =>
    have ids : ∀ x, x ∈ other.ids ↔ x ∈ o.ids := by
      intro x
      rw [← Outline.exists_task?_iff, ← Outline.exists_task?_iff, tasks]
    by_cases known : id ∈ o.ids
    · obtain ⟨task, found⟩ := Outline.exists_task?_iff.mpr known
      obtain ⟨seen, turn⟩ := pass.turn id known
      obtain ⟨seenToo, turnToo⟩ := second.turn id ((ids id).mpr known)
      have foundToo : other.task? id = some task := (tasks id).trans found
      have alike : (demands (Flow.ofPlan o net) seen cal id).Alike (demands flow seenToo cal id) := by
        refine demands_alike (arcs id) (fun source leads => ?_) ?_
        · have leadsToo : flow.Leads source id :=
            Flow.mem_sources.mp (((arcs id).map Arc.source).mem_iff.mpr (Flow.mem_sources.mpr leads))
          rw [turn.sources source leads, turnToo.sources source leadsToo]
          exact (ih source leads).1
        · rw [turn.own, turnToo.own, tasks]
      constructor
      · rw [turn.placed task found, turnToo.placed task foundToo, startWindow_alike alike,
          placedAt_alike alike, nested]
      · rw [turn.skipped task found, turnToo.skipped task foundToo, startWindow_alike alike]
    · have unknown : id ∉ other.ids := (ids id).not.mpr known
      constructor
      · rw [pass.others id known, second.others id unknown, tasks]
      · rw [pass.othersSkipped id known, second.othersSkipped id unknown]

/-- A report that names just the tasks that have changed, and no task twice. -/
structure Reports (o final : Outline) (report : ScheduleReport) : Prop where
  mem_modified : ∀ id, id ∈ report.modified ↔ final.task? id ≠ o.task? id
  nodup_modified : report.modified.Nodup
  nodup_skipped : report.skipped.Nodup

/-- Reports of the same changes name the same tasks. -/
theorem Reports.modified_perm {other final placed : Outline} {report told : ScheduleReport}
    (reports : Reports o final report) (tells : Reports other placed told)
    (before : ∀ id, other.task? id = o.task? id) (after : ∀ id, placed.task? id = final.task? id) :
    told.modified.Perm report.modified := by
  refine (List.perm_ext_iff_of_nodup tells.nodup_modified reports.nodup_modified).mpr fun id => ?_
  rw [tells.mem_modified, reports.mem_modified, before, after]

theorem Reports.skipped_perm {other final placed : Outline} {report told : ScheduleReport}
    (reports : Reports o final report) (tells : Reports other placed told)
    (same : ∀ id, id ∈ told.skipped ↔ id ∈ report.skipped) :
    told.skipped.Perm report.skipped :=
  (List.perm_ext_iff_of_nodup tells.nodup_skipped reports.nodup_skipped).mpr same

/-- The tasks of a plan can be placed in any order that puts each after all that lead to it, and the arcs
into a task read in any order. -/
theorem placeAll_plan (cal : Calendar)
    (arcs : ∀ id, (flow.incoming id).Perm ((Flow.ofPlan o net).incoming id)) {list : List TaskId}
    (sorted : (Flow.ofPlan o net).IsSorted list) :
    ∃ final report, placeAll flow cal list o {} = (final, .ok report) ∧
      Passes flow cal o.ids o final {} report ∧ Reports o final report := by
  have leads : ∀ a b, flow.Leads a b → (Flow.ofPlan o net).Leads a b := fun a b way =>
    Flow.mem_sources.mp (((arcs b).map Arc.source).mem_iff.mp (Flow.mem_sources.mpr way))
  have listed : ∀ id, id ∈ list ↔ id ∈ o.ids := fun id => sorted.mem_iff
  have nodup : list.Nodup := sorted.perm.nodup_iff.mpr o.nodup_ids
  obtain ⟨final, report, done, pass⟩ := placeAll_spec cal nodup
    (sorted.pairwise.imp fun apart way => apart (leads _ _ way))
    (fun task way => sorted.not_leads_self task (leads _ _ way)) o {}
    (fun id member => (listed id).mp member) (by simp)
  have onIds : Passes flow cal o.ids o final {} report :=
    { redated := pass.redated
      others := fun x outside => pass.others x ((listed x).not.mpr outside)
      othersSkipped := fun x outside => pass.othersSkipped x ((listed x).not.mpr outside)
      othersModified := fun x outside => pass.othersModified x ((listed x).not.mpr outside)
      turn := fun id known => pass.turn id ((listed id).mpr known) }
  obtain ⟨modified, skipped, rfl, inOrder, skippedInOrder, kept⟩ := placeAll_reports done
  simp only [List.nil_append] at done onIds ⊢
  refine ⟨final, _, done, onIds, fun id => ⟨fun named => ?_, fun changed => ?_⟩,
    inOrder.nodup nodup, skippedInOrder.nodup nodup⟩
  · obtain ⟨seen, turn⟩ := onIds.turn id ((listed id).mp (inOrder.subset named))
    exact turn.modified named
  · by_contra unnamed
    exact changed (kept id unnamed)

/-- A pass takes the tasks in one such order. -/
theorem exists_run_order (forest : o.hierarchy.IsForest)
    (acyclic : Acyclic (Flow.ofPlan o net).Leads) (cal : Calendar) :
    ∃ list, (Flow.ofPlan o net).IsSorted list ∧
      run true o net cal = placeAll (Flow.ofPlan o net) cal list o {} := by
  have closed := closed_ofPlan net forest
  obtain ⟨layers, layered⟩ := (Flow.exists_layers_iff closed).mpr acyclic
  refine ⟨layers.flatten, Flow.layers_isSorted closed layered, ?_⟩
  simp only [run, pass, if_true, layered]

end Plan

end Schedule

/-! ## The order of nested tasks -/

theorem Flow.incoming_perm {flow other : Flow} (arcs : other.arcs.Perm flow.arcs) (id : TaskId) :
    (other.incoming id).Perm (flow.incoming id) :=
  (List.reverse_perm _).trans ((arcs.filter _).trans (List.reverse_perm _).symm)

theorem Hierarchy.descend_perm {h other : Hierarchy}
    (nested : ∀ id, (other.nested id).Perm (h.nested id)) (steps : Nat) (task : TaskId) :
    (other.descend steps task).Perm (h.descend steps task) := by
  induction steps generalizing task with
  | zero => exact .refl _
  | succ steps ih => exact (nested task).flatMap fun child _ => (ih child).cons child

namespace Outline

variable {o other : Outline}

theorem ext_tasks (hierarchy : other.hierarchy = o.hierarchy)
    (tasks : ∀ id, other.task? id = o.task? id) : other = o :=
  ext_places tasks (congrFun (congrArg Hierarchy.container hierarchy))
    (congrFun (congrArg Hierarchy.nested hierarchy))

/-- The same tasks in the same containers, where those in one container may come in another order. -/
structure Reordered (o other : Outline) : Prop where
  tasks : ∀ id, other.task? id = o.task? id
  container : other.container = o.container
  nested : ∀ id, (other.nested id).Perm (o.nested id)

theorem Reordered.of_ids (ids : other.ids = o.ids)
    (same : ∀ id ∈ o.ids, other.task? id = o.task? id ∧ other.container id = o.container id ∧
      (other.nested id).Perm (o.nested id)) : o.Reordered other := by
  have unknown : ∀ {plan : Outline} {id : TaskId}, id ∉ plan.ids →
      plan.task? id = none ∧ plan.container id = none ∧ plan.nested id = [] := fun outside =>
    ⟨by simp [task?, node?_eq_none_iff.mpr outside], container_of_unknown outside,
      nested_of_unknown outside⟩
  have agree : ∀ id, other.task? id = o.task? id ∧ other.container id = o.container id ∧
      (other.nested id).Perm (o.nested id) := by
    intro id
    by_cases known : id ∈ o.ids
    · exact same id known
    · obtain ⟨task, container, nested⟩ := unknown known
      obtain ⟨otherTask, otherContainer, otherNested⟩ := unknown (ids ▸ known)
      rw [task, container, nested, otherTask, otherContainer, otherNested]
      exact ⟨rfl, rfl, .refl _⟩
  exact ⟨fun id => (agree id).1, funext fun id => (agree id).2.1, fun id => (agree id).2.2⟩

theorem Reordered.mem_ids (same : o.Reordered other) {id : TaskId} : id ∈ other.ids ↔ id ∈ o.ids := by
  rw [← exists_task?_iff, ← exists_task?_iff, same.tasks]

theorem Reordered.ids_perm (same : o.Reordered other) : other.ids.Perm o.ids :=
  (List.perm_ext_iff_of_nodup other.nodup_ids o.nodup_ids).mpr fun _ => same.mem_ids

theorem Reordered.isForest (same : o.Reordered other) (forest : o.hierarchy.IsForest) :
    other.hierarchy.IsForest := by
  refine isForest_of (fun parent task => ?_) (fun parent => ?_) ?_
  · rw [(same.nested parent).mem_iff, same.container]
    exact forest.mem_nested parent task
  · exact (same.nested parent).nodup_iff.mpr (forest.nodup_nested parent)
  · have inside : other.hierarchy.Inside = o.hierarchy.Inside := by
      funext task outer
      exact congrArg (fun container => Relation.TransGen (fun a b => container a = some b) task outer)
        same.container
    rw [inside]
    exact forest.not_inside_self

/-- Such plans have the same arcs, in another order. -/
theorem Reordered.arcs_perm (same : o.Reordered other) (net : Network) :
    (Flow.ofPlan other net).arcs.Perm (Flow.ofPlan o net).arcs := by
  have contains : other.contains = o.contains := by
    funext id
    rw [Bool.eq_iff_iff, contains_iff, contains_iff, same.mem_ids]
  have containment : (Flow.containmentArcs other).Perm (Flow.containmentArcs o) := by
    simp only [Flow.containmentArcs, same.container]
    exact same.ids_perm.filterMap _
  have size : other.hierarchy.tasks.length = o.hierarchy.tasks.length := same.ids_perm.length_eq
  have links : ∀ link, (Flow.linkArcs other link).Perm (Flow.linkArcs o link) := by
    intro link
    refine List.Perm.cons _ (List.Perm.map _ ?_)
    rw [Hierarchy.descendants, Hierarchy.descendants, size]
    exact Hierarchy.descend_perm same.nested _ _
  simp only [Flow.ofPlan, contains]
  exact (containment.append (List.Perm.flatMap_left _ fun link _ => links link)).filter _

theorem Reordered.acyclic {net : Network} (same : o.Reordered other)
    (acyclic : Acyclic (Flow.ofPlan o net).Leads) : Acyclic (Flow.ofPlan other net).Leads := by
  refine acyclic.mono fun a b leads => ?_
  obtain ⟨arc, inPlan, ends⟩ := leads
  exact ⟨arc, (same.arcs_perm net).mem_iff.mp inPlan, ends⟩

end Outline

namespace Schedule

variable {o : Outline} {net : Network}

/-- Where no task leads to itself, whatever the calendar, a pass leaves what it would leave if it took the
tasks in any other order that puts each after all that lead to it, and read the arcs into each task in
any other order: the same outline, and the same tasks modified and skipped. Where the tasks nested in
the containers come in another order, they get the same dates. -/
theorem pass_order_spec (forest : o.hierarchy.IsForest)
    (acyclic : Acyclic (Flow.ofPlan o net).Leads) (cal : Calendar) :
    ∃ final report, run true o net cal = (final, .ok report) ∧
      (∀ flow list, (∀ id, (flow.incoming id).Perm ((Flow.ofPlan o net).incoming id)) →
        (Flow.ofPlan o net).IsSorted list →
        ∃ told, placeAll flow cal list o {} = (final, .ok told) ∧
          told.modified.Perm report.modified ∧ told.skipped.Perm report.skipped) ∧
      ∀ other, o.Reordered other →
        ∃ placed told, run true other net cal = (placed, .ok told) ∧ final.Reordered placed ∧
          told.modified.Perm report.modified ∧ told.skipped.Perm report.skipped := by
  obtain ⟨order, sorted, taken⟩ := exists_run_order forest acyclic cal
  obtain ⟨final, report, done, pass, reports⟩ := placeAll_plan cal (fun _ => .refl _) sorted
  refine ⟨final, report, taken.trans done, fun flow list arcs inOrder => ?_, fun other reordered => ?_⟩
  · obtain ⟨placed, told, again, second, tells⟩ := placeAll_plan cal arcs inOrder
    have same := pass.same acyclic second arcs (fun _ => rfl) fun _ => rfl
    have outline : placed = final :=
      Outline.ext_tasks (second.redated.hierarchy.trans pass.redated.hierarchy.symm)
        fun id => (same id).1
    exact ⟨told, outline ▸ again,
      reports.modified_perm tells (fun _ => rfl) fun id => (same id).1,
      reports.skipped_perm tells fun id => (same id).2⟩
  · obtain ⟨otherOrder, otherSorted, otherTaken⟩ :=
      exists_run_order (reordered.isForest forest) (reordered.acyclic acyclic) cal
    obtain ⟨placed, told, again, second, tells⟩ :=
      placeAll_plan cal (fun _ => .refl _) otherSorted
    have arcs : ∀ id, ((Flow.ofPlan other net).incoming id).Perm ((Flow.ofPlan o net).incoming id) :=
      fun id => Flow.incoming_perm (reordered.arcs_perm net) id
    have same := pass.same acyclic second arcs reordered.tasks fun id =>
      (reordered.nested id).isEmpty_eq
    have hierarchy := pass.redated.hierarchy
    have otherHierarchy := second.redated.hierarchy
    refine ⟨placed, told, otherTaken.trans again, ⟨fun id => (same id).1, ?_, fun id => ?_⟩,
      reports.modified_perm tells reordered.tasks fun id => (same id).1,
      reports.skipped_perm tells fun id => (same id).2⟩
    · have left : placed.container = other.container := congrArg Hierarchy.container otherHierarchy
      have right : final.container = o.container := congrArg Hierarchy.container hierarchy
      rw [left, right, reordered.container]
    · have left : placed.nested = other.nested := congrArg Hierarchy.nested otherHierarchy
      have right : final.nested = o.nested := congrArg Hierarchy.nested hierarchy
      rw [left, right]
      exact reordered.nested id

end Schedule

namespace Sample

/-! ## Two tasks in a container -/

def twin : TaskId := { number := 4 }

/-- Two tasks lie in the outer one, the other stands beside it. -/
def family (older younger : TaskId) : Except OutlineError Outline := do
  let o ← Outline.empty.add (task outer first last)
  let o ← o.nest outer (task older first last)
  let o ← o.nest outer (task younger first last)
  o.add (task other first last)

theorem coherent_family {o : Outline} (built : family inner twin = .ok o) : Coherent o network := by
  unfold family at built
  obtain ⟨_, top, rest⟩ := exists_ok_of_bind built
  obtain ⟨_, older, rest⟩ := exists_ok_of_bind rest
  obtain ⟨_, younger, beside⟩ := exists_ok_of_bind rest
  have coherent := ((((coherent_empty {}).add_task top).nest older).nest younger).add_task beside
  refine coherent.insertLink ?_ ?_ ?_ <;> cases built <;> decide

end Sample

namespace Schedule

/-- The twins change places, in the order of the pass and then in the container. -/
theorem pass_order_spec_for_twins : ∃ o other final report told placed last,
    Sample.family Sample.inner Sample.twin = .ok o ∧
    Sample.family Sample.twin Sample.inner = .ok other ∧
    run true o Sample.network .everyDay = (final, .ok report) ∧
    report.modified = [Sample.twin, Sample.inner, Sample.outer] ∧
    placeAll { arcs := (Flow.ofPlan o Sample.network).arcs.reverse } .everyDay
      [Sample.other, Sample.inner, Sample.twin, Sample.outer] o {} = (final, .ok told) ∧
    told.modified = [Sample.inner, Sample.twin, Sample.outer] ∧
    run true other Sample.network .everyDay = (placed, .ok last) ∧ final.Reordered placed := by
  obtain ⟨o, built⟩ : ∃ o, Sample.family Sample.inner Sample.twin = .ok o := ⟨_, rfl⟩
  obtain ⟨other, otherBuilt⟩ : ∃ o, Sample.family Sample.twin Sample.inner = .ok o := ⟨_, rfl⟩
  have coherent := Sample.coherent_family built
  have acyclic := acyclic_leads coherent.forest coherent.acyclic
  obtain ⟨final, report, done, anyOrder, anyNesting⟩ :=
    pass_order_spec coherent.forest acyclic .everyDay
  have reordered : o.Reordered other := by
    cases built
    cases otherBuilt
    exact .of_ids (by decide) (by decide)
  have sorted : (Flow.ofPlan o Sample.network).IsSorted
      [Sample.other, Sample.inner, Sample.twin, Sample.outer] := by
    refine ⟨?_, ?_, fun task leads => acyclic task (.single leads)⟩ <;> cases built
    · decide
    · unfold Flow.Leads
      decide
  obtain ⟨told, taken, -, -⟩ := anyOrder { arcs := (Flow.ofPlan o Sample.network).arcs.reverse } _
    (Flow.incoming_perm (List.reverse_perm _)) sorted
  obtain ⟨placed, last, again, same, -, -⟩ := anyNesting other reordered
  have moved : (run true o Sample.network .everyDay).2.toOption.map ScheduleReport.modified =
      some [Sample.twin, Sample.inner, Sample.outer] := by
    cases built
    decide
  have movedFirst : (placeAll { arcs := (Flow.ofPlan o Sample.network).arcs.reverse } .everyDay
      [Sample.other, Sample.inner, Sample.twin, Sample.outer] o {}).2.toOption.map
        ScheduleReport.modified = some [Sample.inner, Sample.twin, Sample.outer] := by
    cases built
    decide
  rw [done] at moved
  rw [taken] at movedFirst
  exact ⟨o, other, final, report, told, placed, last, built, otherBuilt, done,
    Option.some.inj moved, taken, Option.some.inj movedFirst, again, same⟩

end Schedule

end Workplan
