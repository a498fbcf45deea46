/-
# Workplan.Proofs.RefusedMoves — what a refused move leaves behind

A move is refused before anything is touched, or else it is made, found to close a loop and taken back.
Taking it back always works, and gives every task its container and its dates again. It does not give the
task its place among its siblings: a task goes to the end of the container that it is moved to, also when
it goes back.

* `restored_move` — the way back, outline by outline;
* `move_eq_error` — why a project refuses a move, and the project it then leaves;
* `refused_move_spec` — so a refused move changes nothing but the place of the task among its siblings,
  and nothing at all if the task was the last of them or stood at the top;
* `refused_move_reorders` — a task that was not the last.
-/
import Workplan.Proofs.ProjectRuns

namespace Workplan

set_option autoImplicit false

/-- The other outline has the same tasks with the same dates, each in the same container and in the same
order, but that the given task comes last in its container. -/
structure Outline.PutsLast (o : Outline) (id : TaskId) (other : Outline) : Prop where
  tasks : ∀ x, other.task? x = o.task? x
  containers : ∀ x, other.container x = o.container x
  nested : ∀ x, other.nested x = if o.container id = some x then (o.nested x).filter (· ≠ id) ++ [id]
    else o.nested x

/-- The task stands at the top, or last in its container. -/
def Outline.IsLast (o : Outline) (id : TaskId) : Prop :=
  ∀ parent, o.container id = some parent → (o.nested parent).getLast? = some id

section Outlines

variable {o : Outline} {id : TaskId}

/-- To take the last of a list without repetition out and put it at the end changes nothing, and only
then is nothing changed. -/
theorem filter_ne_append_eq_iff {list : List TaskId} (nodup : list.Nodup) :
    list.filter (· ≠ id) ++ [id] = list ↔ list.getLast? = some id := by
  constructor
  · intro same
    rw [← same, List.getLast?_concat]
  · intro last
    obtain ⟨front, rfl⟩ := List.getLast?_eq_some_iff.mp last
    have absent : id ∉ front := by
      intro member
      exact (List.nodup_append.mp nodup).2.2 id member id (List.mem_singleton.mpr rfl) rfl
    rw [List.filter_append, Outline.filter_ne_of_not_mem absent]
    simp

/-- A move that is taken back leaves the task last in its container, and all else as it was. -/
theorem restored_move {moved restored : Outline} {target : Option TaskId}
    (forest : o.hierarchy.IsForest) (done : o.move id target = .ok moved)
    (undone : moved.move id (o.container id) = .ok restored) : o.PutsLast id restored where
  tasks x := (Outline.task?_move undone x).trans (Outline.task?_move done x)
  containers x := by
    rw [Outline.container_move undone, Outline.container_move done]
    split
    · rename_i same
      rw [same]
    · rfl
  nested x := by
    have without : (moved.nested x).filter (· ≠ id) = (o.nested x).filter (· ≠ id) := by
      rw [Outline.nested_move forest done]
      split <;> simp [List.filter_append, List.filter_filter]
    rw [Outline.nested_move (Outline.isForest_move forest done) undone, without]
    split
    · rfl
    · rename_i elsewhere
      refine Outline.filter_ne_of_not_mem fun member => elsewhere ?_
      exact (forest.mem_nested x id).mp member

theorem Outline.PutsLast.eq_iff {other : Outline} (forest : o.hierarchy.IsForest)
    (puts : o.PutsLast id other) : other = o ↔ o.IsLast id := by
  constructor
  · rintro rfl parent found
    have same := puts.nested parent
    rw [if_pos found] at same
    exact (filter_ne_append_eq_iff (forest.nodup_nested parent)).mp same.symm
  · intro last
    refine Outline.ext_places puts.tasks puts.containers fun x => ?_
    rw [puts.nested]
    split
    · rename_i found
      exact (filter_ne_append_eq_iff (forest.nodup_nested x)).mpr (last x found)
    · rfl

end Outlines

namespace Project

variable {p : Project} {task : TaskId} {target : Option TaskId} {reason : ProjectError}

/-- The outline refuses a move and the project stays as it is, or the move is found to close a loop and
taken back. -/
theorem move_eq_error (coherent : p.IsCoherent) (refused : (p.move task target).2 = .error reason) :
    (∃ why, p.outline.move task target = .error why ∧ reason = .outline why ∧
        (p.move task target).1 = p) ∨
      ∃ restored, reason = .moveClosesLoop task ∧ p.outline.PutsLast task restored ∧
        (p.move task target).1 = { p with outline := restored } := by
  cases done : p.outline.move task target with
  | error why =>
    have stopped : p.move task target = (p, .error (.outline why)) := by simp only [move, done]
    rw [stopped] at refused ⊢
    exact .inl ⟨why, rfl, (Except.error.inj refused).symm, rfl⟩
  | ok moved =>
    cases sorted : (Flow.ofPlan moved p.network).order with
    | ok order => simp [move, done, sorted] at refused
    | error cycle =>
      obtain ⟨restored, undone, -, -⟩ := move_back coherent.plan.forest done
      have stopped : p.move task target =
          ({ p with outline := restored }, .error (.moveClosesLoop task)) := by
        simp only [move, done, sorted, undone]
      rw [stopped] at refused ⊢
      exact .inr ⟨restored, (Except.error.inj refused).symm,
        restored_move coherent.plan.forest done undone, rfl⟩

/-- Whatever was asked of a project that started empty: when it refuses a move, its links, its settings
and the mark of a stale schedule stay as they are, and so do the dates and the container of every task.
Either the outline refused the move and nothing is changed, or the move would have closed a loop and the
task comes last in its container. The project is what it was unless the move would have closed a loop
and the task was not the last there. -/
theorem refused_move_spec {settings : Settings} {start : Project}
    (opened : ofSettings settings = .ok start) (edits : List Edit) (task : TaskId)
    (target : Option TaskId) {reason : ProjectError}
    (refused : ((start.run edits).move task target).2 = .error reason) :
    let p := start.run edits
    let left := (p.move task target).1
    left = { p with outline := left.outline } ∧
      ((∃ why, p.outline.move task target = .error why ∧ reason = .outline why ∧ left = p) ∨
        reason = .moveClosesLoop task ∧ p.outline.PutsLast task left.outline) ∧
      (left = p ↔ reason ≠ .moveClosesLoop task ∨ p.outline.IsLast task) := by
  have coherent := isCoherent_run (isCoherent_ofSettings opened) edits
  intro p left
  rcases move_eq_error coherent refused with ⟨why, stopped, rfl, same⟩ | ⟨restored, rfl, puts, same⟩
  · refine ⟨?_, .inl ⟨why, stopped, rfl, same⟩, fun _ => .inl (by simp), fun _ => same⟩
    change left = p at same
    rw [same]
  · change left = { p with outline := restored } at same
    have outline : left.outline = restored := congrArg Project.outline same
    refine ⟨outline ▸ same, .inr ⟨rfl, outline ▸ puts⟩, ?_⟩
    have sameOutline : left = p ↔ restored = p.outline := by
      constructor
      · intro equal
        rw [← outline, equal]
      · intro equal
        rw [same, equal]
    rw [sameOutline, or_iff_right fun differs => differs rfl]
    exact puts.eq_iff coherent.plan.forest

end Project

namespace Sample

/-- A second task for the container. -/
def sibling : TaskId := { number := 6 }

end Sample

namespace Project

/-- Two tasks lie in one container, and the first of them waits for a task outside. -/
def Edit.siblings : List Edit :=
  [.add (Sample.task Sample.outer Sample.first Sample.last),
    .nest Sample.outer (Sample.task Sample.inner Sample.first Sample.last),
    .nest Sample.outer (Sample.task Sample.sibling Sample.first Sample.last),
    .add (Sample.task Sample.other Sample.first Sample.last),
    .links (.create ⟨Sample.inner, Sample.other⟩)]

/-- The first of the two cannot be moved to the task that it waits for, and is not the last. -/
theorem refused_move_spec_among_siblings : ∃ start, ofSettings { weekends := [] } = .ok start ∧
    let p := start.run Edit.siblings
    let left := (p.move Sample.inner (some Sample.other)).1
    (p.move Sample.inner (some Sample.other)).2 = .error (.moveClosesLoop Sample.inner) ∧
      p.outline.PutsLast Sample.inner left.outline ∧ left ≠ p := by
  obtain ⟨start, opened⟩ : ∃ start, ofSettings { weekends := [] } = .ok start := ⟨_, rfl⟩
  have refused : ((start.run Edit.siblings).move Sample.inner (some Sample.other)).2 =
      .error (.moveClosesLoop Sample.inner) := by
    cases opened
    decide
  obtain ⟨-, outcome, unchanged⟩ :=
    refused_move_spec opened Edit.siblings Sample.inner (some Sample.other) refused
  refine ⟨start, opened, refused, ?_, fun same => ?_⟩
  · rcases outcome with ⟨why, -, other, -⟩ | ⟨-, puts⟩
    · cases other
    · exact puts
  · have last := (unchanged.mp same).resolve_left (by simp) Sample.outer
    cases opened
    exact absurd (last (by decide)) (by decide)

/-- After the refused move the two stand in the other order. -/
theorem refused_move_reorders : ∃ start, ofSettings { weekends := [] } = .ok start ∧
    let p := start.run Edit.siblings
    (p.move Sample.inner (some Sample.other)).2 = .error (.moveClosesLoop Sample.inner) ∧
      p.outline.nested Sample.outer = [Sample.inner, Sample.sibling] ∧
      (p.move Sample.inner (some Sample.other)).1.outline.nested Sample.outer =
        [Sample.sibling, Sample.inner] := by
  refine ⟨_, rfl, ?_⟩
  decide

end Project

end Workplan
