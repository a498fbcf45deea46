/-
# Workplan.Proofs.FittingRounds — containers fitted until none is left

Containers are fitted in rounds, and a round that changes some puts theirs into the next. Nothing but
an empty round ends this. `Rounds` says of a list of changes that it comes about in such rounds, up to
an empty one. `fit` counts its rounds, and here is why it never counts too few: each round lies one step
further out than the round before, and no task lies in more containers than there are tasks.

* `rounds_fitRounds` — enough rounds for the depth of the first ones go on to an empty one;
* `rounds_fit` — and `fit` has enough, whatever tasks are named to it.
-/
import Workplan.Proofs.Forest
import Workplan.Proofs.ToldChanges

namespace Workplan.Bounds

set_option autoImplicit false

/-- Rounds that lead from an outline to another one and end with an empty round; the list names the
containers that changed. -/
inductive Rounds : TaskSet → Outline → Outline → List TaskId → Prop where
  | done {level : TaskSet} {o : Outline} (empty : level.entries = []) : Rounds level o o []
  | next {level : TaskSet} {o fitted final : Outline} {changed later : List TaskId}
      (nonempty : level.entries ≠ []) (round : fitRound level.entries o = (fitted, .ok changed))
      (rest : Rounds (.ofList (changed.filterMap fitted.container)) fitted final later) :
      Rounds level o final (changed ++ later)

variable {o fitted final : Outline} {changed : List TaskId}

/-- A round takes one container after the other. -/
theorem fitRound_cons_eq_ok {container : TaskId} {rest : List TaskId}
    (round : fitRound (container :: rest) o = (fitted, .ok changed)) :
    refit? o container = .ok none ∧ fitRound rest o = (fitted, .ok changed) ∨
      ∃ next later, refit? o container = .ok (some next) ∧
        fitRound rest next = (fitted, .ok later) ∧ changed = container :: later := by
  simp only [fitRound] at round
  split at round
  · cases round
  · rename_i same
    exact .inl ⟨same, round⟩
  · rename_i next refitted
    obtain ⟨last, answer, later⟩ : ∃ last answer, fitRound rest next = (last, answer) :=
      ⟨_, _, rfl⟩
    simp only [later, Prod.mk.injEq] at round
    obtain ⟨rfl, answered⟩ := round
    obtain ⟨more, rfl, rfl⟩ := exists_ok_of_map answered
    exact .inr ⟨next, more, refitted, later, rfl⟩

/-- A round changes none but its own containers, each in its turn. -/
theorem sublist_of_fitRound {level : List TaskId}
    (round : fitRound level o = (fitted, .ok changed)) : changed.Sublist level := by
  induction level generalizing o fitted changed with
  | nil =>
    cases round
    exact .slnil
  | cons container rest ih =>
    rcases fitRound_cons_eq_ok round with ⟨-, later⟩ | ⟨next, more, -, later, rfl⟩
    · exact (ih later).cons _
    · exact (ih later).cons_cons _

/-- A container lies in fewer containers than what is nested in it. -/
theorem lower_next_level (forest : o.hierarchy.IsForest) {level : TaskSet} {rounds : Nat}
    (bound : ∀ task ∈ level.entries, (o.hierarchy.ancestors task).length < rounds + 1)
    (round : fitRound level.entries o = (fitted, .ok changed)) :
    ∀ task ∈ (TaskSet.ofList (changed.filterMap fitted.container)).entries,
      (fitted.hierarchy.ancestors task).length < rounds := by
  have redated := redated_fitRound level.entries o
  rw [round] at redated
  intro container member
  obtain ⟨task, inside, found⟩ := List.mem_filterMap.mp (TaskSet.mem_ofList.mp member)
  have below := bound task ((sublist_of_fitRound round).subset inside)
  have same : fitted.hierarchy = o.hierarchy := redated.hierarchy
  have higher : o.hierarchy.Inside task container := .of_container (same ▸ found)
  have less := forest.length_ancestors_lt higher
  rw [same]
  omega

/-- Where the containers of the first round lie in fewer others than there are rounds to go, the rounds
go on until one is empty. -/
theorem rounds_fitRounds (forest : o.hierarchy.IsForest) (rounds : Nat) {level : TaskSet}
    (bound : ∀ task ∈ level.entries, (o.hierarchy.ancestors task).length < rounds)
    (done : fitRounds rounds level o = (final, .ok changed)) : Rounds level o final changed := by
  induction rounds generalizing level o final changed with
  | zero =>
    have empty : level.entries = [] :=
      List.eq_nil_iff_forall_not_mem.mpr fun task member => Nat.not_lt_zero _ (bound task member)
    cases done
    exact .done empty
  | succ rounds ih =>
    simp only [fitRounds] at done
    split at done
    · rename_i empty
      cases done
      exact .done empty
    · rename_i nonempty
      split at done
      · cases done
      · rename_i next first round
        have redated := redated_fitRound level.entries o
        rw [round] at redated
        have same : next.hierarchy = o.hierarchy := redated.hierarchy
        obtain ⟨last, answer, rest⟩ : ∃ last answer, fitRounds rounds
          (.ofList (first.filterMap next.container)) next = (last, answer) := ⟨_, _, rfl⟩
        simp only [rest, Prod.mk.injEq] at done
        obtain ⟨rfl, answered⟩ := done
        obtain ⟨later, rfl, rfl⟩ := exists_ok_of_map answered
        exact .next nonempty round
          (ih (same ▸ forest) (lower_next_level forest bound round) rest)

/-- The fitting of containers makes no error and stops of its own accord. -/
theorem rounds_fit (forest : o.hierarchy.IsForest) (ordered : o.Ordered) (tasks : List TaskId) :
    ∃ final changed, fit o tasks = (final, .ok changed) ∧
      Rounds (.ofList (tasks.filterMap o.container)) o final changed := by
  obtain ⟨final, changed, done, -⟩ := fit_spec ordered tasks
  refine ⟨final, changed, done, rounds_fitRounds forest (o.size + 1) (fun task _ => ?_) done⟩
  have bound := forest.length_ancestors_le task
  have size : o.hierarchy.tasks.length = o.size := List.length_map _
  omega

end Workplan.Bounds
