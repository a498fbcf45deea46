/-
# Workplan.Network.Index — links seen from their ends

The index of a network lists every link twice, once from each end. An end names the task, the role
it plays in the link and the task at the other end; ends are ordered in this sequence, so all ends
of a task, and all ends of a task in one role, stand side by side.

* `between_role_iff`, `between_task_iff` — the ranges that they fill.
* `key_of_mem_ends` — an end tells its link.
-/
import Workplan.Link.Key

namespace Workplan

set_option autoImplicit false

/-- The part a task plays in a link. -/
inductive Role where
  | dependant | dependee
  deriving DecidableEq

/-- Dependants come before dependees. -/
def Role.rank : Role → Nat
  | dependant => 0
  | dependee => 1

theorem Role.rank_inj {a b : Role} : a.rank = b.rank ↔ a = b := by
  cases a <;> cases b <;> simp [rank]

/-- A link seen from one of its tasks. -/
structure LinkEnd where
  task : TaskId
  role : Role
  other : TaskId
  deriving DecidableEq

namespace LinkEnd

/-- The key of the link that the end belongs to. -/
def key (e : LinkEnd) : LinkKey :=
  match e.role with
  | .dependant => ⟨e.task, e.other⟩
  | .dependee => ⟨e.other, e.task⟩

instance : LE LinkEnd :=
  ⟨fun a b => a.task < b.task ∨
    a.task = b.task ∧ (a.role.rank < b.role.rank ∨ a.role = b.role ∧ a.other ≤ b.other)⟩

instance : LT LinkEnd :=
  ⟨fun a b => a.task < b.task ∨
    a.task = b.task ∧ (a.role.rank < b.role.rank ∨ a.role = b.role ∧ a.other < b.other)⟩

theorem le_iff {a b : LinkEnd} : a ≤ b ↔
    a.task.number < b.task.number ∨ a.task.number = b.task.number ∧
      (a.role.rank < b.role.rank ∨ a.role.rank = b.role.rank ∧ a.other.number ≤ b.other.number) := by
  change (_ ∨ _ ∧ (_ ∨ _ ∧ _)) ↔ _
  rw [TaskId.ext_iff, TaskId.lt_iff, TaskId.le_iff, Role.rank_inj]

theorem lt_iff {a b : LinkEnd} : a < b ↔
    a.task.number < b.task.number ∨ a.task.number = b.task.number ∧
      (a.role.rank < b.role.rank ∨ a.role.rank = b.role.rank ∧ a.other.number < b.other.number) := by
  change (_ ∨ _ ∧ (_ ∨ _ ∧ _)) ↔ _
  rw [TaskId.ext_iff, TaskId.lt_iff, TaskId.lt_iff, Role.rank_inj]

instance (a b : LinkEnd) : Decidable (a ≤ b) :=
  inferInstanceAs (Decidable (_ ∨ _ ∧ (_ ∨ _ ∧ _)))

instance (a b : LinkEnd) : Decidable (a < b) :=
  inferInstanceAs (Decidable (_ ∨ _ ∧ (_ ∨ _ ∧ _)))

instance : Std.IsLinearOrder LinkEnd where
  le_refl a := by rw [le_iff]; omega
  le_trans a b c := by simp only [le_iff]; omega
  le_antisymm a b := by
    cases a; cases b
    simp only [le_iff, mk.injEq, TaskId.ext_iff, ← Role.rank_inj]
    omega
  le_total a b := by simp only [le_iff]; omega

instance : Std.LawfulOrderLT LinkEnd where
  lt_iff a b := by simp only [le_iff, lt_iff]; omega

/-- No end of a task in a role comes before this one. -/
def firstOf (task : TaskId) (role : Role) : LinkEnd := ⟨task, role, .least⟩

/-- No end of a task in a role comes after this one. -/
def lastOf (task : TaskId) (role : Role) : LinkEnd := ⟨task, role, .greatest⟩

theorem between_role_iff {e : LinkEnd} {task : TaskId} {role : Role} :
    firstOf task role ≤ e ∧ e ≤ lastOf task role ↔ e.task = task ∧ e.role = role := by
  have above := TaskId.le_iff.mp (TaskId.least_le e.other)
  have below := TaskId.le_iff.mp (TaskId.le_greatest e.other)
  simp only [le_iff, firstOf, lastOf, TaskId.ext_iff, ← Role.rank_inj]
  omega

/-- The ends of a task in both roles fill one range. -/
theorem between_task_iff {e : LinkEnd} {task : TaskId} :
    firstOf task .dependant ≤ e ∧ e ≤ lastOf task .dependee ↔ e.task = task := by
  have above := TaskId.le_iff.mp (TaskId.least_le e.other)
  have below := TaskId.le_iff.mp (TaskId.le_greatest e.other)
  have ranks : Role.dependant.rank ≤ e.role.rank ∧ e.role.rank ≤ Role.dependee.rank := by
    cases e.role <;> decide
  simp only [le_iff, firstOf, lastOf, TaskId.ext_iff]
  omega

end LinkEnd

namespace LinkKey

def dependantEnd (key : LinkKey) : LinkEnd := ⟨key.dependant, .dependant, key.dependee⟩

def dependeeEnd (key : LinkKey) : LinkEnd := ⟨key.dependee, .dependee, key.dependant⟩

/-- The two ends of a link. -/
def ends (key : LinkKey) : List LinkEnd := [key.dependantEnd, key.dependeeEnd]

theorem mem_ends {key : LinkKey} {e : LinkEnd} :
    e ∈ key.ends ↔ e = key.dependantEnd ∨ e = key.dependeeEnd := by
  simp [ends]

theorem key_of_mem_ends {key : LinkKey} {e : LinkEnd} (member : e ∈ key.ends) : e.key = key := by
  rcases mem_ends.mp member with rfl | rfl <;> rfl

theorem mem_ends_key (e : LinkEnd) : e ∈ e.key.ends := by
  rcases e with ⟨task, role, other⟩
  cases role <;> simp [LinkEnd.key, ends, dependantEnd, dependeeEnd]

end LinkKey

end Workplan
