/-
# Workplan.Proofs.FittingReports — what a fitting reports

The report of a fitting is the list of its changes, in the order in which it makes them. In one round no
container changes twice. But rounds are not levels of the outline: tasks given at different depths set
out in the same round, so a container in which they lie comes up in several rounds, first perhaps with a
container inside it that is still to be fitted.

Each round lies one step further out than the one before. So a task given `k` levels below a container
brings the container up in round `k`, and no later one, and a container changes no more often than there
are depths at which the tasks given inside it lie:

* `Rounds.count_le` — at most one change for each of these depths;
* `fit_report_spec` — so where they lie at one depth, the report has a container exactly if its dates are
  not what they were, and has it once;
* `fit_reports_restored` — else it may have a container twice whose dates are what they were.
-/
import Mathlib.Data.Finset.Card
import Workplan.Proofs.FittedContainers

namespace Workplan

set_option autoImplicit false

namespace Hierarchy

variable {h : Hierarchy} {tasks : List TaskId} {container outer : TaskId} {depth : Nat}

/-- The depths at which some of the tasks lie inside another one. -/
def depthsInside (h : Hierarchy) (tasks : List TaskId) (outer : TaskId) : Finset Nat :=
  ((tasks.filter (h.isAncestor outer)).map h.depth).toFinset

theorem IsForest.mem_depthsInside (forest : h.IsForest) :
    depth ∈ h.depthsInside tasks outer ↔
      ∃ task ∈ tasks, h.Inside task outer ∧ h.depth task = depth := by
  simp only [depthsInside, List.mem_toFinset, List.mem_map, List.mem_filter,
    forest.isAncestor_iff, and_assoc]

theorem IsForest.depth_of_container (forest : h.IsForest) {task : TaskId}
    (found : h.container task = some container) : h.depth task = h.depth container + 1 := by
  rw [depth, depth, forest.ancestors_cons found, List.length_cons]

theorem IsForest.depthsInside_outwards (forest : h.IsForest)
    (found : h.container container = some outer) (lies : depth ∈ h.depthsInside tasks container) :
    depth ∈ h.depthsInside tasks outer := by
  obtain ⟨task, given, inside, same⟩ := forest.mem_depthsInside.mp lies
  exact forest.mem_depthsInside.mpr ⟨task, given, inside.trans (.of_container found), same⟩

end Hierarchy

namespace Bounds

variable {o fitted final : Outline} {tasks changed : List TaskId}

/-! ## Rounds and depths -/

/-- Each container that comes up in a round lies as many levels above one of the tasks as the number of
the round says. -/
def Above (h : Hierarchy) (tasks : List TaskId) (round : Nat) (level : TaskSet) : Prop :=
  ∀ container ∈ level.entries, h.depth container + round ∈ h.depthsInside tasks container

theorem above_first (forest : o.hierarchy.IsForest) :
    Above o.hierarchy tasks 1 (.ofList (tasks.filterMap o.container)) := by
  intro container member
  rw [TaskSet.mem_ofList, List.mem_filterMap] at member
  obtain ⟨task, given, found⟩ := member
  have inside : o.hierarchy.Inside task container := .of_container found
  exact forest.mem_depthsInside.mpr ⟨task, given, inside, forest.depth_of_container found⟩

theorem Above.next {level : TaskSet} {round : Nat} (above : Above o.hierarchy tasks round level)
    (forest : o.hierarchy.IsForest) (done : fitRound level.entries o = (fitted, .ok changed)) :
    Above fitted.hierarchy tasks (round + 1) (.ofList (changed.filterMap fitted.container)) := by
  have redated := (redatedBy_fitRound forest done).redatedOn
  intro container member
  rw [TaskSet.mem_ofList, List.mem_filterMap] at member
  obtain ⟨inner, now, found⟩ := member
  rw [redated.container] at found
  have lies := above inner ((sublist_of_fitRound done).subset now)
  have deeper : o.hierarchy.depth inner = o.hierarchy.depth container + 1 :=
    forest.depth_of_container found
  rw [deeper, Nat.add_right_comm] at lies
  rw [redated.hierarchy]
  exact forest.depthsInside_outwards found lies

/-- How many depths there are from one on. -/
def depthsFrom (depths : Finset Nat) (least : Nat) : Nat :=
  (depths.filter (least ≤ ·)).card

theorem depthsFrom_succ_le (depths : Finset Nat) (least : Nat) :
    depthsFrom depths (least + 1) ≤ depthsFrom depths least :=
  Finset.card_le_card (Finset.monotone_filter_right depths fun _ _ further =>
    Nat.le_of_succ_le further)

theorem depthsFrom_succ_lt {depths : Finset Nat} {least : Nat} (lies : least ∈ depths) :
    depthsFrom depths (least + 1) < depthsFrom depths least := by
  have fewer : depths.filter (least + 1 ≤ ·) ⊆ depths.filter (least ≤ ·) :=
    Finset.monotone_filter_right depths fun _ _ further => Nat.le_of_succ_le further
  refine Finset.card_lt_card ((Finset.ssubset_iff_of_subset fewer).mpr ⟨least, ?_, ?_⟩)
  · exact Finset.mem_filter.mpr ⟨lies, le_rfl⟩
  · exact fun further => Nat.not_succ_le_self least (Finset.mem_filter.mp further).2

/-- From some round on, a container changes at most once for each depth at which tasks inside it are as
far below it as that round, or farther. -/
theorem Rounds.count_le {level : TaskSet} (rounds : Rounds level o final changed)
    (forest : o.hierarchy.IsForest) {round : Nat} (above : Above o.hierarchy tasks round level)
    (id : TaskId) :
    changed.count id ≤
      depthsFrom (o.hierarchy.depthsInside tasks id) (o.hierarchy.depth id + round) := by
  induction rounds generalizing round with
  | done => exact Nat.zero_le _
  | @next level o fitted final changed later _ done _ ih =>
    have redated := (redatedBy_fitRound forest done).redatedOn
    have afterwards : later.count id ≤
        depthsFrom (o.hierarchy.depthsInside tasks id) (o.hierarchy.depth id + round + 1) := by
      rw [← redated.hierarchy]
      exact ih (redated.hierarchy ▸ forest) (above.next forest done)
    rw [List.count_append]
    have changes := sublist_of_fitRound done
    by_cases now : id ∈ changed
    · -- The depth that belongs to this round belongs to none that follows.
      have fewer := depthsFrom_succ_lt (above id (changes.subset now))
      have once : changed.count id = 1 :=
        List.count_eq_one_of_mem (changes.nodup (Catalog.nodup_of_sorted level.sorted)) now
      omega
    · have fewer := depthsFrom_succ_le (o.hierarchy.depthsInside tasks id)
        (o.hierarchy.depth id + round)
      rw [List.count_eq_zero.mpr now, Nat.zero_add]
      exact afterwards.trans fewer

/-! ## The report -/

/-- The report lists the changes one after the other. It has every container whose dates are not what they
were, and none more often than there are depths at which the given tasks inside it lie. If that is
one depth, it has the container once if the dates are others, and not at all if they are the same. -/
theorem fit_report_spec (forest : o.hierarchy.IsForest) (ordered : o.Ordered) (tasks : List TaskId) :
    ∃ final changed, fit o tasks = (final, .ok changed) ∧ o.RedatedBy changed final ∧
      (∀ id, final.dates? id ≠ o.dates? id → id ∈ changed) ∧
      (∀ id, changed.count id ≤ (o.hierarchy.depthsInside tasks id).card) ∧
      ∀ id, (o.hierarchy.depthsInside tasks id).card ≤ 1 →
        changed.count id = if final.dates? id = o.dates? id then 0 else 1 := by
  obtain ⟨final, changed, done, rounds, turns, -⟩ := fit_redates forest ordered tasks
  have bound : ∀ id, changed.count id ≤ (o.hierarchy.depthsInside tasks id).card := fun id =>
    (rounds.count_le forest (above_first forest) id).trans (Finset.card_filter_le _ _)
  refine ⟨final, changed, done, turns, fun id differ => ?_, bound, fun id single => ?_⟩
  · exact List.count_pos_iff.mp (turns.count_pos differ)
  · have most := (bound id).trans single
    split
    · rename_i same
      by_contra listed
      exact turns.dates?_ne (by omega) same
    · rename_i differ
      have listed := turns.count_pos differ
      omega

/-- Fitting around the innermost task gives the inner container other dates, and the outer one has the
right ones. -/
theorem fit_report_spec_stacked : ∃ o final, Sample.stacked = .ok o ∧
    fit o [Sample.innermost] = (final, .ok [Sample.inner]) ∧
    (o.hierarchy.depthsInside [Sample.innermost] Sample.outer).card ≤ 1 ∧
    final.dates? Sample.outer = o.dates? Sample.outer ∧
    final.dates? Sample.inner ≠ o.dates? Sample.inner := by
  obtain ⟨o, built⟩ : ∃ o, Sample.stacked = .ok o := ⟨_, rfl⟩
  obtain ⟨forest, ordered⟩ := Sample.forest_threefold built
  obtain ⟨final, changed, done, -, -, -, exact⟩ :=
    fit_report_spec forest ordered [Sample.innermost]
  have report : (fit o [Sample.innermost]).2 = .ok [Sample.inner] := by
    cases built
    decide
  rw [done] at report
  cases report
  have oneDepth : (o.hierarchy.depthsInside [Sample.innermost] Sample.outer).card ≤ 1 ∧
      (o.hierarchy.depthsInside [Sample.innermost] Sample.inner).card ≤ 1 := by
    cases built
    decide
  refine ⟨o, final, built, done, oneDepth.1, ?_, ?_⟩
  · by_contra differ
    have once := exact Sample.outer oneDepth.1
    rw [if_neg differ] at once
    exact absurd once (by decide)
  · intro same
    have never := exact Sample.inner oneDepth.2
    rw [if_pos same] at never
    exact absurd never (by decide)

/-- Around tasks at two depths, the outer container is fitted to the inner one as it was and then gets its
dates back. The report has it twice. -/
theorem fit_reports_restored : ∃ o final, Sample.stacked = .ok o ∧
    fit o [Sample.inner, Sample.innermost] =
      (final, .ok [Sample.outer, Sample.inner, Sample.outer]) ∧
    o.hierarchy.depthsInside [Sample.inner, Sample.innermost] Sample.outer = {2, 3} ∧
    final.dates? Sample.outer = o.dates? Sample.outer :=
  ⟨_, _, rfl, rfl, by decide, by decide⟩

end Bounds

end Workplan
