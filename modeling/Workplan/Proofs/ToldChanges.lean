/-
# Workplan.Proofs.ToldChanges — what tells nothing has changed nothing

A project learns from the changes it is told that its dates may be out of date. `Tells` says of an edit
that it cannot go unnoticed: if it tells no change, it has made none. That is so for all edits of the
links but three, `LinkEdit.IsSilent`: clearing them, clearing them in a batch, and changing how strictly
one is held. In the same way the fitting of containers names each container that it changes.

* `Edited.Logs.tells` — an edit whose changes are a log of the links;
* `LinkEdit.tells` — all edits of the links;
* `Bounds.fit_spec` — the fitting of containers, which makes no error as long as no task ends before it
  starts.
-/
import Workplan.Proofs.LinkLog
import Workplan.Proofs.Redating

namespace Workplan

set_option autoImplicit false

namespace Edited

variable {σ α : Type}

/-- If the edit tells no change, the state is as it was before. -/
def Tells (before : σ) (edited : Edited σ α) : Prop :=
  edited.changes = [] → edited.state = before

/-- An edit that logs its changes cannot go unnoticed. -/
theorem Logs.tells {net : Network} {edited : Edited Network α} (logs : edited.Logs net) :
    edited.Tells net := by
  intro none
  have follows := logs.follows
  rw [none] at follows
  exact Network.ext_find? follows.eq_of_nil logs.defaults

end Edited

/-! ## Links -/

/-- The edits of the links that may change them and tell nothing. -/
def LinkEdit.IsSilent : LinkEdit → Prop
  | .clear | .setHardness _ _ => True
  | .batch calls _ => .clear ∈ calls
  | _ => False

/-- All other edits tell a change if they make one. -/
theorem LinkEdit.tells (h : Hierarchy) (net : Network) {edit : LinkEdit} (told : ¬ edit.IsSilent) :
    (edit.perform h net).Tells net := by
  refine (logs h net (fun clears => told ?_) fun key hardens => told ?_).tells
  · cases edit with
    | clear => trivial
    | batch calls commits => exact clears.2
    | _ => exact clears.elim
  · cases edit with
    | setHardness => trivial
    | _ => exact hardens.elim

/-! ## Containers -/

namespace Bounds

variable {o : Outline}

theorem spanOfNested?_ordered (ordered : o.Ordered) {container : TaskId} {first last : Date}
    (found : spanOfNested? o container = some (first, last)) : first ≤ last := by
  simp only [spanOfNested?] at found
  split at found
  · rename_i least greatest
    cases found
    obtain ⟨member, smallest⟩ := List.min?_eq_some_iff.mp least
    obtain ⟨-, largest⟩ := List.max?_eq_some_iff.mp greatest
    obtain ⟨child, inside, rfl⟩ := List.mem_map.mp member
    obtain ⟨id, -, there⟩ := List.mem_filterMap.mp inside
    exact Std.le_trans (ordered id child there) (largest _ (List.mem_map_of_mem inside))
  · contradiction

theorem refit?_spec (ordered : o.Ordered) (container : TaskId) :
    refit? o container = .ok none ∨ ∃ fitted, refit? o container = .ok (some fitted) := by
  unfold refit?
  split
  · rename_i first last task span found
    split
    · exact .inl rfl
    · obtain ⟨dated, done, -⟩ := Outline.setDates_of_known (Outline.exists_task?_iff.mp ⟨task, found⟩)
        (spanOfNested?_ordered ordered span)
      exact .inr ⟨dated, by rw [done]; rfl⟩
  · exact .inl rfl

theorem fitRound_spec (ordered : o.Ordered) (level : List TaskId) :
    ∃ fitted changed, fitRound level o = (fitted, .ok changed) ∧ (changed = [] → fitted = o) := by
  induction level generalizing o with
  | nil => exact ⟨o, [], rfl, fun _ => rfl⟩
  | cons container rest ih =>
    simp only [fitRound]
    rcases refit?_spec ordered container with same | ⟨next, done⟩
    · rw [same]
      exact ih ordered
    · obtain ⟨fitted, changed, round, -⟩ := ih ((redated_refit? done).ordered ordered)
      exact ⟨fitted, container :: changed, by rw [done]; simp only [round]; rfl, by simp⟩

theorem fitRounds_spec (ordered : o.Ordered) (rounds : Nat) (level : TaskSet) :
    ∃ fitted changed, fitRounds rounds level o = (fitted, .ok changed) ∧
      (changed = [] → fitted = o) := by
  induction rounds generalizing level o with
  | zero => exact ⟨o, [], rfl, fun _ => rfl⟩
  | succ rounds ih =>
    simp only [fitRounds]
    split
    · exact ⟨o, [], rfl, fun _ => rfl⟩
    · obtain ⟨next, changed, round, same⟩ := fitRound_spec ordered level.entries
      have redated := redated_fitRound level.entries o
      rw [round] at redated
      obtain ⟨fitted, later, rest, sameRest⟩ :=
        ih (redated.ordered ordered) (.ofList (changed.filterMap next.container))
      refine ⟨fitted, changed ++ later, by rw [round]; simp only [rest]; rfl, fun none => ?_⟩
      obtain ⟨noneFirst, noneLater⟩ := List.append_eq_nil_iff.mp none
      exact (sameRest noneLater).trans (same noneFirst)

/-- Fitting containers makes no error, and where it names no container it has changed none. -/
theorem fit_spec (ordered : o.Ordered) (tasks : List TaskId) :
    ∃ fitted changed, fit o tasks = (fitted, .ok changed) ∧ (changed = [] → fitted = o) :=
  fitRounds_spec ordered _ _

end Bounds

end Workplan
