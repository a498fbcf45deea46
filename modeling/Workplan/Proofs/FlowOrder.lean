/-
# Workplan.Proofs.FlowOrder — a flow has an order exactly when it has no cycle

The search keeps three kinds of tasks apart: unseen ones, sorted ones, and those in progress, from
which a way leads to the task at hand. A task is sorted when everything it leads to has been seen;
whatever of this is not sorted yet is in progress, so that a way leads back from it (`Settled`).
From this invariant of the search:

* `order_isSorted`, `leads_self_of_order_error` — an order holds every task once, none before one
  that leads to it; a refusal names a task on a cycle;
* `order_eq_ok_iff` — there is an order exactly when no way leads back to its start;
* `layers_isSorted` — the layers, one after another, are an order as well;
* `IsSorted.pairwise_not_way` — in an order no way leads back, whatever its length.
-/
import Mathlib.Data.List.Nodup
import Mathlib.Logic.Relation
import Workplan.Flow.Order
import Workplan.Proofs.Forest

namespace Workplan

set_option autoImplicit false

namespace Flow

/-- An arc leads from the one task to the other. -/
def Leads (flow : Flow) (a b : TaskId) : Prop :=
  ∃ arc ∈ flow.arcs, arc.source = a ∧ arc.target = b

/-- Each task is there once, and arcs stay among the tasks. -/
structure Closed (flow : Flow) : Prop where
  nodup_tasks : flow.tasks.Nodup
  mem_tasks : ∀ a b, flow.Leads a b → a ∈ flow.tasks ∧ b ∈ flow.tasks

/-- All tasks, each once, and none before a task that leads to it. -/
structure IsSorted (flow : Flow) (list : List TaskId) : Prop where
  perm : list.Perm flow.tasks
  pairwise : list.Pairwise fun earlier later => ¬ flow.Leads later earlier
  not_leads_self : ∀ task, ¬ flow.Leads task task

variable {flow : Flow}

theorem mem_successors {a b : TaskId} : b ∈ flow.successors a ↔ flow.Leads a b := by
  simp only [successors, List.mem_map, mem_outgoing, Leads, and_assoc]

theorem mem_sources {a b : TaskId} : a ∈ flow.sources b ↔ flow.Leads a b := by
  simp only [sources, List.mem_map, mem_incoming, Leads, and_assoc, and_comm]

/-! ## A sorted list rules cycles out -/

theorem IsSorted.mem_iff {list : List TaskId} (sorted : flow.IsSorted list) {task : TaskId} :
    task ∈ list ↔ task ∈ flow.tasks :=
  sorted.perm.mem_iff

theorem IsSorted.idxOf_lt (closed : flow.Closed) {list : List TaskId}
    (sorted : flow.IsSorted list) {a b : TaskId} (leads : flow.Leads a b) :
    list.idxOf a < list.idxOf b := by
  obtain ⟨knownA, knownB⟩ := closed.mem_tasks a b leads
  have insideA := List.idxOf_lt_length_of_mem (sorted.mem_iff.mpr knownA)
  have insideB := List.idxOf_lt_length_of_mem (sorted.mem_iff.mpr knownB)
  rcases Nat.lt_trichotomy (list.idxOf a) (list.idxOf b) with less | same | greater
  · exact less
  · have equal : a = b := (List.idxOf_inj (sorted.mem_iff.mpr knownA)).mp same
    exact absurd (equal ▸ leads) (sorted.not_leads_self b)
  · have late := List.pairwise_iff_getElem.mp sorted.pairwise _ _ insideB insideA greater
    simp only [List.getElem_idxOf] at late
    exact absurd leads late

theorem IsSorted.idxOf_lt_of_way (closed : flow.Closed) {list : List TaskId}
    (sorted : flow.IsSorted list) {a b : TaskId} (way : Relation.TransGen flow.Leads a b) :
    list.idxOf a < list.idxOf b := by
  induction way with
  | single leads => exact sorted.idxOf_lt closed leads
  | tail _ leads ih => exact Nat.lt_trans ih (sorted.idxOf_lt closed leads)

theorem IsSorted.acyclic (closed : flow.Closed) {list : List TaskId}
    (sorted : flow.IsSorted list) : Acyclic flow.Leads := fun _ cycle =>
  Nat.lt_irrefl _ (sorted.idxOf_lt_of_way closed cycle)

/-- No task leads to an earlier one, through others either. -/
theorem IsSorted.pairwise_not_way (closed : flow.Closed) {list : List TaskId}
    (sorted : flow.IsSorted list) :
    list.Pairwise fun earlier later => ¬ Relation.TransGen flow.Leads later earlier := by
  have nodup : list.Nodup := sorted.perm.nodup_iff.mpr closed.nodup_tasks
  rw [List.pairwise_iff_getElem]
  intro i j inside insideToo before way
  have back := sorted.idxOf_lt_of_way closed way
  rw [nodup.idxOf_getElem, nodup.idxOf_getElem] at back
  omega

/-! ## The search -/

/-- What each task of the list leads to stands after it, or leads back to it. -/
def Settled (flow : Flow) : List TaskId → Prop
  | [] => True
  | task :: rest =>
    (∀ next, flow.Leads task next →
      next ≠ task ∧ (next ∈ rest ∨ Relation.TransGen flow.Leads next task)) ∧ flow.Settled rest

/-- The search has seen the task and is not done with it. -/
def InProgress (flow : Flow) (sweep : Sweep) (task : TaskId) : Prop :=
  task ∈ flow.tasks ∧ task ∉ sweep.unseen ∧ task ∉ sweep.sorted

/-- The invariant of the search. -/
structure Sound (flow : Flow) (sweep : Sweep) : Prop where
  nodup : sweep.sorted.Nodup
  known : ∀ task ∈ sweep.sorted, task ∈ flow.tasks
  apart : ∀ task ∈ sweep.sorted, task ∉ sweep.unseen
  settled : flow.Settled sweep.sorted

/-- The search went on and came back to the tasks in progress that it left. -/
structure Advance (flow : Flow) (before after : Sweep) : Prop where
  sound : flow.Sound after
  inProgress : ∀ task, flow.InProgress after task ↔ flow.InProgress before task
  unseen : after.unseen ⊆ before.unseen
  length : after.unseen.length ≤ before.unseen.length

theorem Advance.refl {sweep : Sweep} (sound : flow.Sound sweep) : flow.Advance sweep sweep :=
  ⟨sound, fun _ => Iff.rfl, fun _ member => member, Nat.le_refl _⟩

theorem Advance.trans {first second third : Sweep} (left : flow.Advance first second)
    (right : flow.Advance second third) : flow.Advance first third where
  sound := right.sound
  inProgress task := (right.inProgress task).trans (left.inProgress task)
  unseen _ member := left.unseen (right.unseen member)
  length := Nat.le_trans right.length left.length

/-- What `finish` promises of a search with room for the given number of unseen tasks. -/
def Finishes (flow : Flow) (depth : Nat) : Prop :=
  ∀ {task : TaskId} {sweep after : Sweep}, flow.finish depth task sweep = .ok after →
    sweep.unseen.length ≤ depth → flow.Sound sweep → task ∈ flow.tasks →
    (∀ t, flow.InProgress sweep t → Relation.TransGen flow.Leads t task) →
    flow.Advance sweep after ∧ task ∉ after.unseen

theorem foldlM_finish {depth : Nat} (finishes : flow.Finishes depth) {list : List TaskId}
    {sweep after : Sweep}
    (done : list.foldlM (fun sweep task => flow.finish depth task sweep) sweep = .ok after)
    (room : sweep.unseen.length ≤ depth) (sound : flow.Sound sweep)
    (known : ∀ task ∈ list, task ∈ flow.tasks)
    (ways : ∀ task ∈ list, ∀ t, flow.InProgress sweep t → Relation.TransGen flow.Leads t task) :
    flow.Advance sweep after ∧ ∀ task ∈ list, task ∉ after.unseen := by
  induction list generalizing sweep with
  | nil =>
    cases done
    exact ⟨.refl sound, by simp⟩
  | cons task rest ih =>
    rw [List.foldlM_cons] at done
    cases first : flow.finish depth task sweep with
    | error cyclic => rw [first] at done; contradiction
    | ok middle =>
      rw [first] at done
      obtain ⟨advance, seen⟩ := finishes first room sound (known task List.mem_cons_self)
        (ways task List.mem_cons_self)
      obtain ⟨further, restSeen⟩ := ih done (Nat.le_trans advance.length room) advance.sound
        (fun t member => known t (List.mem_cons_of_mem _ member))
        (fun t member open_ inProgress => ways t (List.mem_cons_of_mem _ member) open_
          ((advance.inProgress open_).mp inProgress))
      refine ⟨advance.trans further, fun t member => ?_⟩
      rcases List.mem_cons.mp member with rfl | later
      · exact fun unseen => seen (further.unseen unseen)
      · exact restSeen t later

/-- Seeing a task puts it in progress and changes nothing else. -/
theorem inProgress_seen {sweep : Sweep} (sound : flow.Sound sweep) {task : TaskId}
    (known : task ∈ flow.tasks) (unseen : task ∈ sweep.unseen) (t : TaskId) :
    flow.InProgress { sweep with unseen := sweep.unseen.filter (· ≠ task) } t ↔
      t = task ∨ flow.InProgress sweep t := by
  have notSorted : task ∉ sweep.sorted := fun member => sound.apart task member unseen
  simp only [InProgress, List.mem_filter, decide_eq_true_eq, ne_eq, not_and, not_not]
  constructor
  · rintro ⟨knownT, seen, left⟩
    by_cases same : t = task
    · exact .inl same
    · exact .inr ⟨knownT, fun member => same (seen member), left⟩
  · rintro (rfl | ⟨knownT, seen, left⟩)
    · exact ⟨known, fun _ => rfl, notSorted⟩
    · exact ⟨knownT, fun member => absurd member seen, left⟩

/-- Sorting a task in puts it out of progress and changes nothing else. -/
theorem inProgress_sorted {sweep : Sweep} {task t : TaskId} :
    flow.InProgress { sweep with sorted := task :: sweep.sorted } t ↔
      t ≠ task ∧ flow.InProgress sweep t := by
  simp only [InProgress, List.mem_cons, not_or]
  constructor
  · rintro ⟨known, seen, differ, left⟩
    exact ⟨differ, known, seen, left⟩
  · rintro ⟨differ, known, seen, left⟩
    exact ⟨known, seen, differ, left⟩

/-- A task in progress may be sorted in when all it leads to is sorted or leads back to it. -/
theorem Sound.sortIn {sweep : Sweep} (sound : flow.Sound sweep) {task : TaskId}
    (inProgress : flow.InProgress sweep task)
    (settled : ∀ next, flow.Leads task next →
      next ≠ task ∧ (next ∈ sweep.sorted ∨ Relation.TransGen flow.Leads next task)) :
    flow.Sound { sweep with sorted := task :: sweep.sorted } where
  nodup := List.nodup_cons.mpr ⟨inProgress.2.2, sound.nodup⟩
  known t member := by
    rcases List.mem_cons.mp member with rfl | later
    · exact inProgress.1
    · exact sound.known t later
  apart t member := by
    rcases List.mem_cons.mp member with rfl | later
    · exact inProgress.2.1
    · exact sound.apart t later
  settled := ⟨settled, sound.settled⟩

theorem finish_advances (closed : flow.Closed) (depth : Nat) : flow.Finishes depth := by
  induction depth with
  | zero =>
    intro task sweep after done room sound known ways
    cases done
    have none : sweep.unseen = [] := List.eq_nil_of_length_eq_zero (Nat.le_zero.mp room)
    exact ⟨.refl sound, by simp [none]⟩
  | succ depth ih =>
    intro task sweep after done room sound known ways
    simp only [finish] at done
    split at done
    · rename_i unseen
      split at done
      · contradiction
      · rename_i noLoop
        split at done
        · contradiction
        · rename_i inner fold
          cases done
          have start := inProgress_seen sound known unseen
          have smaller : (sweep.unseen.filter (· ≠ task)).length < sweep.unseen.length :=
            List.length_filter_lt_length_iff_exists.mpr ⟨task, unseen, by simp⟩
          obtain ⟨advance, seen⟩ := foldlM_finish ih fold (by simp only; omega)
            ⟨sound.nodup, sound.known, fun t member left =>
              sound.apart t member (List.mem_filter.mp left).1, sound.settled⟩
            (fun next member => by
              rw [List.mem_reverse, mem_successors] at member
              exact (closed.mem_tasks _ _ member).2)
            (fun next member t inProgress => by
              rw [List.mem_reverse, mem_successors] at member
              rcases (start t).mp inProgress with rfl | before
              · exact .single member
              · exact (ways t before).tail member)
          have inProgress : flow.InProgress inner task :=
            (advance.inProgress task).mpr ((start task).mpr (.inl rfl))
          have fewer : ∀ t ∈ inner.unseen, t ∈ sweep.unseen := fun t member =>
            (List.mem_filter.mp (advance.unseen member)).1
          refine ⟨⟨advance.sound.sortIn inProgress ?_, ?_, fewer, ?_⟩, inProgress.2.1⟩
          · intro next leads
            have different : next ≠ task := by
              rintro rfl
              exact noLoop (mem_successors.mpr leads)
            refine ⟨different, ?_⟩
            by_cases sorted : next ∈ inner.sorted
            · exact .inl sorted
            · -- seen but not sorted, `next` was in progress when the task was taken up
              have nextSeen := seen next (by rw [List.mem_reverse, mem_successors]; exact leads)
              have open_ : flow.InProgress inner next :=
                ⟨(closed.mem_tasks _ _ leads).2, nextSeen, sorted⟩
              rcases (start next).mp ((advance.inProgress next).mp open_) with same | before
              · exact absurd same different
              · exact .inr (ways next before)
          · intro t
            rw [inProgress_sorted, advance.inProgress t, start t]
            constructor
            · rintro ⟨differ, same | before⟩
              · exact absurd same differ
              · exact before
            · intro before
              exact ⟨fun same => before.2.1 (same ▸ unseen), .inr before⟩
          · have length := advance.length
            simp only at length ⊢
            omega
    · rename_i seen
      cases done
      exact ⟨.refl sound, seen⟩

/-- A fold that stops does so at one of its items. -/
theorem exists_error_of_foldlM {ε σ α : Type} {f : σ → α → Except ε σ} {list : List α} {state : σ}
    {reason : ε} (stopped : list.foldlM f state = .error reason) :
    ∃ item ∈ list, ∃ reached, f reached item = .error reason := by
  induction list generalizing state with
  | nil => contradiction
  | cons item rest ih =>
    rw [List.foldlM_cons] at stopped
    cases first : f state item with
    | error found =>
      rw [first] at stopped
      cases stopped
      exact ⟨item, List.mem_cons_self, state, first⟩
    | ok next =>
      rw [first] at stopped
      obtain ⟨later, member, reached, failed⟩ := ih stopped
      exact ⟨later, List.mem_cons_of_mem _ member, reached, failed⟩

/-- Only a task that leads to itself stops the search. -/
theorem leads_self_of_finish_error {depth : Nat} {task cyclic : TaskId} {sweep : Sweep}
    (stopped : flow.finish depth task sweep = .error cyclic) : flow.Leads cyclic cyclic := by
  induction depth generalizing task sweep with
  | zero => contradiction
  | succ depth ih =>
    simp only [finish] at stopped
    split at stopped
    · split at stopped
      · rename_i loop
        cases stopped
        exact mem_successors.mp loop
      · split at stopped
        · rename_i fold
          cases stopped
          obtain ⟨next, -, reached, failed⟩ := exists_error_of_foldlM fold
          exact ih failed
        · contradiction
    · contradiction

/-! ## The order -/

theorem sortedTasks_ok (closed : flow.Closed) {list : List TaskId}
    (done : flow.sortedTasks = .ok list) : list.Perm flow.tasks ∧ flow.Settled list := by
  unfold sortedTasks at done
  split at done
  · contradiction
  · rename_i sweep fold
    cases done
    have nothing : ∀ t, ¬ flow.InProgress { unseen := flow.tasks } t := fun t open_ =>
      open_.2.1 open_.1
    obtain ⟨advance, seen⟩ := foldlM_finish (finish_advances closed _) fold (Nat.le_refl _)
      ⟨List.nodup_nil, by simp, by simp, trivial⟩ (fun _ member => member)
      (fun _ _ t open_ => absurd open_ (nothing t))
    refine ⟨(List.perm_ext_iff_of_nodup advance.sound.nodup closed.nodup_tasks).mpr fun t => ?_,
      advance.sound.settled⟩
    refine ⟨advance.sound.known t, fun known => ?_⟩
    by_contra notSorted
    exact nothing t ((advance.inProgress t).mp ⟨known, seen t known, notSorted⟩)

theorem Settled.of_append {before : List TaskId} {task : TaskId} {rest : List TaskId}
    (settled : flow.Settled (before ++ task :: rest)) {next : TaskId}
    (leads : flow.Leads task next) :
    next ≠ task ∧ (next ∈ rest ∨ Relation.TransGen flow.Leads next task) := by
  induction before with
  | nil => exact settled.1 next leads
  | cons _ _ ih => exact ih settled.2

theorem pairwise_of_lateSource?_none {before list : List TaskId}
    (none : flow.lateSource? before list = none) (nodup : list.Nodup)
    (apart : ∀ task ∈ list, task ∉ before) :
    list.Pairwise fun earlier later => ¬ flow.Leads later earlier := by
  induction list generalizing before with
  | nil => exact .nil
  | cons task rest ih =>
    obtain ⟨fresh, nodupRest⟩ := List.nodup_cons.mp nodup
    simp only [lateSource?] at none
    split at none
    · contradiction
    · rename_i empty
      rw [List.getLast?_eq_none_iff, List.filter_eq_nil_iff] at empty
      refine List.pairwise_cons.mpr ⟨fun later member leads => ?_, ih none nodupRest ?_⟩
      · have allowed := empty later (mem_sources.mpr leads)
        simp only [ne_eq, Bool.and_eq_true, decide_eq_true_eq, not_and, not_not] at allowed
        by_cases same : later = task
        · exact fresh (same ▸ member)
        · exact apart later (List.mem_cons_of_mem _ member) (allowed same)
      · intro t member
        rw [List.mem_cons, not_or]
        exact ⟨fun same => fresh (same ▸ member), apart t (List.mem_cons_of_mem _ member)⟩

theorem exists_of_lateSource?_some {before list : List TaskId} {late : TaskId}
    (found : flow.lateSource? before list = some late) :
    ∃ front task rest, list = front ++ task :: rest ∧ flow.Leads late task ∧ late ≠ task ∧
      late ∉ before ∧ late ∉ front := by
  induction list generalizing before with
  | nil => contradiction
  | cons task rest ih =>
    simp only [lateSource?] at found
    split at found
    · rename_i source last
      cases found
      have member := List.mem_of_getLast? last
      simp only [List.mem_filter, mem_sources, ne_eq, Bool.and_eq_true, decide_eq_true_eq]
        at member
      exact ⟨[], task, rest, rfl, member.1, member.2.1, member.2.2, List.not_mem_nil⟩
    · obtain ⟨front, target, tail, rfl, leads, differ, notBefore, notFront⟩ := ih found
      simp only [List.mem_cons, not_or] at notBefore
      refine ⟨task :: front, target, tail, rfl, leads, differ, notBefore.2, ?_⟩
      rw [List.mem_cons, not_or]
      exact ⟨notBefore.1, notFront⟩

theorem order_isSorted (closed : flow.Closed) {list : List TaskId}
    (done : flow.order = .ok list) : flow.IsSorted list := by
  unfold order at done
  split at done
  · contradiction
  · rename_i sorted search
    split at done
    · contradiction
    · rename_i none
      cases done
      obtain ⟨perm, settled⟩ := sortedTasks_ok closed search
      refine ⟨perm, ?_, fun task loop => ?_⟩
      · exact pairwise_of_lateSource?_none none (perm.nodup_iff.mpr closed.nodup_tasks) (by simp)
      · obtain ⟨front, rest, rfl⟩ := List.append_of_mem
          (perm.mem_iff.mpr (closed.mem_tasks _ _ loop).1)
        exact (settled.of_append loop).1 rfl

/-- The task that a refusal names lies on a cycle. -/
theorem leads_self_of_order_error (closed : flow.Closed) {reason : ScheduleError}
    (refused : flow.order = .error reason) :
    ∃ task, reason = .cycle task ∧ Relation.TransGen flow.Leads task task := by
  unfold order at refused
  split at refused
  · rename_i cyclic search
    cases refused
    unfold sortedTasks at search
    split at search
    · rename_i fold
      cases search
      obtain ⟨task, -, reached, failed⟩ := exists_error_of_foldlM fold
      exact ⟨cyclic, rfl, .single (leads_self_of_finish_error failed)⟩
    · contradiction
  · rename_i sorted search
    split at refused
    · rename_i late found
      cases refused
      obtain ⟨perm, settled⟩ := sortedTasks_ok closed search
      obtain ⟨front, task, rest, rfl, leads, differ, -, notFront⟩ :=
        exists_of_lateSource?_some found
      have nodup := perm.nodup_iff.mpr closed.nodup_tasks
      have member := perm.mem_iff.mpr (closed.mem_tasks _ _ leads).1
      have after : late ∈ rest := by
        simpa [notFront, differ] using member
      obtain ⟨middle, tail, rfl⟩ := List.append_of_mem after
      -- the target stands before its late source, so what is left is that it leads back
      have shape : front ++ task :: (middle ++ late :: tail) =
          (front ++ task :: middle) ++ late :: tail := by simp
      rw [shape] at settled nodup
      have apart := (List.nodup_append.mp nodup).2.2
      rcases (settled.of_append leads).2 with behind | back
      · exact absurd rfl (apart task (by simp) task (List.mem_cons_of_mem _ behind))
      · exact ⟨late, rfl, .head leads back⟩
    · contradiction

theorem order_eq_ok_iff (closed : flow.Closed) :
    (∃ list, flow.order = .ok list) ↔ Acyclic flow.Leads := by
  constructor
  · rintro ⟨list, done⟩
    exact (order_isSorted closed done).acyclic closed
  · intro acyclic
    cases result : flow.order with
    | ok list => exact ⟨list, rfl⟩
    | error reason =>
      obtain ⟨task, -, cycle⟩ := leads_self_of_order_error closed result
      exact absurd cycle (acyclic task)

/-! ## Levels and layers -/

theorem foldl_max_spec (list : List Nat) (least : Nat) :
    least ≤ list.foldl max least ∧ (∀ n ∈ list, n ≤ list.foldl max least) ∧
      (list.foldl max least = least ∨ list.foldl max least ∈ list) := by
  induction list generalizing least with
  | nil => simp
  | cons n rest ih =>
    obtain ⟨above, all, reached⟩ := ih (max least n)
    rw [List.foldl_cons]
    refine ⟨by omega, fun m member => ?_, ?_⟩
    · rcases List.mem_cons.mp member with rfl | later
      · omega
      · exact all m later
    · rcases reached with same | member
      · rcases Nat.le_total least n with less | more
        · exact .inr (List.mem_cons.mpr (.inl (by omega)))
        · exact .inl (by omega)
      · exact .inr (List.mem_cons_of_mem _ member)

theorem lookup_eq_some_iff {known : List (TaskId × Nat)} (nodup : (known.map Prod.fst).Nodup)
    {task : TaskId} {level : Nat} : known.lookup task = some level ↔ (task, level) ∈ known := by
  induction known with
  | nil => simp
  | cons entry rest ih =>
    obtain ⟨fresh, nodupRest⟩ := List.nodup_cons.mp nodup
    obtain ⟨other, height⟩ := entry
    by_cases same : task = other
    · subst same
      simp only [List.lookup_cons_self, Option.some.injEq, List.mem_cons, Prod.mk.injEq, true_and]
      constructor
      · exact fun equal => .inl equal.symm
      · rintro (equal | member)
        · exact equal.symm
        · exact absurd (List.mem_map_of_mem (f := Prod.fst) member) fresh
    · have differ : (task == other) = false := by simpa using same
      rw [List.lookup_cons, differ]
      simp only [ih nodupRest, List.mem_cons, Prod.mk.injEq, same, false_and, false_or]

section Levels

variable {known : List (TaskId × Nat)}

/-- Every task is one level above the highest of those that lead to it, or else at the bottom. -/
def Leveled (flow : Flow) (known : List (TaskId × Nat)) : Prop :=
  ∀ task level, (task, level) ∈ known →
    (∀ source, flow.Leads source task → ∃ below, (source, below) ∈ known ∧ below < level) ∧
      (level = 0 ∨ ∃ source below, flow.Leads source task ∧ (source, below) ∈ known ∧
        level = below + 1)

theorem Leveled.snoc (leveled : flow.Leveled known) {task : TaskId}
    (nodup : (known.map Prod.fst).Nodup)
    (sources : ∀ source, flow.Leads source task → source ∈ known.map Prod.fst) :
    flow.Leveled (known ++ [(task, flow.levelAfter known task)]) := by
  obtain ⟨-, bound, reached⟩ := foldl_max_spec
    ((flow.sources task).filterMap fun source => (known.lookup source).map (· + 1)) 0
  have grown : ∀ entry ∈ known, entry ∈ known ++ [(task, flow.levelAfter known task)] :=
    fun _ member => List.mem_append_left _ member
  intro t level member
  rcases List.mem_append.mp member with old | new
  · obtain ⟨above, tight⟩ := leveled t level old
    refine ⟨fun source leads => ?_, ?_⟩
    · obtain ⟨below, there, less⟩ := above source leads
      exact ⟨below, grown _ there, less⟩
    · rcases tight with bottom | ⟨source, below, leads, there, next⟩
      · exact .inl bottom
      · exact .inr ⟨source, below, leads, grown _ there, next⟩
  · obtain ⟨rfl, rfl⟩ := Prod.mk.inj (List.mem_singleton.mp new)
    refine ⟨fun source leads => ?_, ?_⟩
    · obtain ⟨⟨first, below⟩, there, same⟩ := List.mem_map.mp (sources source leads)
      obtain rfl : first = source := same
      refine ⟨below, grown _ there, bound (below + 1) (List.mem_filterMap.mpr ?_)⟩
      exact ⟨first, mem_sources.mpr leads, by simp [(lookup_eq_some_iff nodup).mpr there]⟩
    · rcases reached with bottom | top
      · exact .inl bottom
      · obtain ⟨source, leads, found⟩ := List.mem_filterMap.mp top
        obtain ⟨below, there, next⟩ := Option.map_eq_some_iff.mp found
        exact .inr ⟨source, below, mem_sources.mp leads,
          grown _ ((lookup_eq_some_iff nodup).mp there), next.symm⟩

theorem levels_spec {list : List TaskId} (leveled : flow.Leveled known)
    (nodup : (known.map Prod.fst ++ list).Nodup)
    (ordered : ∀ front task rest, list = front ++ task :: rest → ∀ source,
      flow.Leads source task → source ∈ known.map Prod.fst ++ front) :
    flow.Leveled (flow.levels list known) ∧
      (flow.levels list known).map Prod.fst = known.map Prod.fst ++ list := by
  induction list generalizing known with
  | nil => exact ⟨leveled, by simp [levels]⟩
  | cons task rest ih =>
    have nodupKnown := (List.nodup_append.mp nodup).1
    have sources : ∀ source, flow.Leads source task → source ∈ known.map Prod.fst := by
      intro source leads
      simpa using ordered [] task rest rfl source leads
    have keys : (known ++ [(task, flow.levelAfter known task)]).map Prod.fst =
        known.map Prod.fst ++ [task] := by simp
    obtain ⟨levelled, names⟩ := ih (leveled.snoc nodupKnown sources) (by rw [keys]; simpa using nodup)
      (by
        rintro front t tail rfl source leads
        rw [keys]
        simpa using ordered (task :: front) t tail rfl source leads)
    refine ⟨levelled, ?_⟩
    rw [levels, names, keys]
    simp

theorem IsSorted.levels_spec (closed : flow.Closed) {list : List TaskId}
    (sorted : flow.IsSorted list) :
    flow.Leveled (flow.levels list []) ∧ (flow.levels list []).map Prod.fst = list := by
  have nodup := sorted.perm.nodup_iff.mpr closed.nodup_tasks
  have nothing : flow.Leveled [] := by simp [Leveled]
  have spec := Flow.levels_spec nothing (by simpa using nodup) (by
      rintro front task rest rfl source leads
      have member := sorted.mem_iff.mpr (closed.mem_tasks _ _ leads).1
      have late := (List.pairwise_append.mp sorted.pairwise).2.1
      rcases List.mem_append.mp member with before | after
      · simpa using before
      · rcases List.mem_cons.mp after with rfl | later
        · exact absurd leads (sorted.not_leads_self source)
        · exact absurd leads (List.rel_of_pairwise_cons late later))
  simpa using spec

/-- The tasks of one level. -/
theorem mem_layer {level : Nat} {task : TaskId} :
    task ∈ (known.filter fun entry => entry.2 = level).map Prod.fst ↔ (task, level) ∈ known := by
  simp

theorem Leveled.lt (leveled : flow.Leveled known) (nodup : (known.map Prod.fst).Nodup)
    {source task : TaskId} {low high : Nat} (leads : flow.Leads source task)
    (left : (source, low) ∈ known) (right : (task, high) ∈ known) : low < high := by
  obtain ⟨below, there, less⟩ := (leveled task high right).1 source leads
  have same := ((lookup_eq_some_iff nodup).mpr left).symm.trans
    ((lookup_eq_some_iff nodup).mpr there)
  exact Option.some.inj same ▸ less

/-- Level by level, every task comes after all tasks that lead to it. -/
theorem Leveled.isSorted_flatten (leveled : flow.Leveled known)
    (nodup : (known.map Prod.fst).Nodup) (perm : (known.map Prod.fst).Perm flow.tasks)
    (closed : flow.Closed) {height : Nat} (high : ∀ entry ∈ known, entry.2 < height) :
    flow.IsSorted ((List.range height).map fun level =>
      (known.filter fun entry => entry.2 = level).map Prod.fst).flatten := by
  have listed : ∀ task ∈ flow.tasks, ∃ level, (task, level) ∈ known := by
    intro task member
    obtain ⟨⟨_, level⟩, there, rfl⟩ := List.mem_map.mp (perm.mem_iff.mpr member)
    exact ⟨level, there⟩
  refine ⟨(List.perm_ext_iff_of_nodup ?_ closed.nodup_tasks).mpr fun task => ?_, ?_, ?_⟩
  · refine List.nodup_flatten.mpr ⟨?_, ?_⟩
    · intro layer there
      obtain ⟨level, -, rfl⟩ := List.mem_map.mp there
      exact nodup.sublist (List.filter_sublist.map _)
    · refine List.pairwise_map.mpr (List.nodup_range.imp fun differ task left right => differ ?_)
      have same := ((lookup_eq_some_iff nodup).mpr (mem_layer.mp left)).symm.trans
        ((lookup_eq_some_iff nodup).mpr (mem_layer.mp right))
      exact Option.some.inj same
  · rw [List.mem_flatten, ← perm.mem_iff, List.mem_map]
    constructor
    · rintro ⟨layer, there, inside⟩
      obtain ⟨level, -, rfl⟩ := List.mem_map.mp there
      exact ⟨(task, level), mem_layer.mp inside, rfl⟩
    · rintro ⟨⟨_, level⟩, inside, rfl⟩
      exact ⟨_, List.mem_map.mpr ⟨level, List.mem_range.mpr (high _ inside), rfl⟩,
        mem_layer.mpr inside⟩
  · refine List.pairwise_flatten.mpr ⟨?_, ?_⟩
    · intro layer there
      obtain ⟨level, -, rfl⟩ := List.mem_map.mp there
      refine List.pairwise_of_forall_mem_list fun earlier left later right leads => ?_
      exact Nat.lt_irrefl _ (leveled.lt nodup leads (mem_layer.mp right) (mem_layer.mp left))
    · refine List.pairwise_map.mpr (List.pairwise_lt_range.imp ?_)
      intro low high less earlier left later right leads
      have back := leveled.lt nodup leads (mem_layer.mp right) (mem_layer.mp left)
      omega
  · intro task loop
    obtain ⟨level, there⟩ := listed task (closed.mem_tasks _ _ loop).1
    exact Nat.lt_irrefl _ (leveled.lt nodup loop there there)

/-- Layer by layer, every task comes after all tasks that lead to it. -/
theorem layers_isSorted (closed : flow.Closed) {layers : List (List TaskId)}
    (done : flow.layers = .ok layers) : flow.IsSorted layers.flatten := by
  unfold Flow.layers at done
  split at done
  · contradiction
  · rename_i list order
    cases done
    have sorted := order_isSorted closed order
    obtain ⟨leveled, names⟩ := sorted.levels_spec closed
    refine leveled.isSorted_flatten ?_ ?_ closed fun entry member => ?_
    · rw [names]
      exact sorted.perm.nodup_iff.mpr closed.nodup_tasks
    · rw [names]
      exact sorted.perm
    · exact (foldl_max_spec _ 0).2.1 (entry.2 + 1) (List.mem_map.mpr ⟨entry, member, rfl⟩)

end Levels

theorem exists_layers_iff (closed : flow.Closed) :
    (∃ layers, flow.layers = .ok layers) ↔ Acyclic flow.Leads := by
  rw [← order_eq_ok_iff closed]
  unfold Flow.layers
  cases flow.order <;> simp

theorem leads_self_of_layers_error (closed : flow.Closed) {reason : ScheduleError}
    (refused : flow.layers = .error reason) :
    ∃ task, reason = .cycle task ∧ Relation.TransGen flow.Leads task task := by
  unfold Flow.layers at refused
  cases order : flow.order with
  | ok list =>
    rw [order] at refused
    contradiction
  | error cyclic =>
    rw [order] at refused
    cases refused
    exact leads_self_of_order_error closed order

end Flow

end Workplan
