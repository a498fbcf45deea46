/-
# Workplan.Link.Key — the two ends of a link

A link is known by the task that depends and the task it depends on, in this order; there is at
most one link for each such pair. As text the two stand in the order of time, `3->7` for a link on
which 7 waits for 3. Keys are ordered by the dependant, then by the dependee.
-/
import Workplan.TaskId
import Workplan.Text.Split

namespace Workplan

set_option autoImplicit false

/-- Why a text names no task or no link. -/
inductive IdError where
  | notTask (text : String)
  | notLink (text : String)
  deriving DecidableEq

def IdError.message : IdError → String
  | notTask text => s!"Invalid task ID: expected a non-negative integer, got '{text}'"
  | notLink text =>
    "Invalid dependency key: expected '\x7bdependee\x7d->\x7bdependant\x7d', got '" ++ text ++ "'"

/-- Reads the name of a task; the error tells the text without the blanks around it. -/
def TaskId.parse (text : List Char) : Except IdError TaskId :=
  match TaskId.read? text with
  | some task => .ok task
  | none => .error (.notTask (String.ofList (Text.trim text)))

/-- The tasks at the two ends of a link. -/
structure LinkKey where
  dependant : TaskId
  dependee : TaskId
  deriving DecidableEq

namespace LinkKey

instance : ToString LinkKey := ⟨fun key => s!"{key.dependee}->{key.dependant}"⟩

/-- The key of the link in the opposite direction. -/
def reversed (key : LinkKey) : LinkKey := ⟨key.dependee, key.dependant⟩

/-- Whether the task is at one of the ends. -/
def touches (key : LinkKey) (task : TaskId) : Bool :=
  key.dependant = task || key.dependee = task

/-- Reads a key; blanks may surround it and each of its ends. -/
def parse (text : List Char) : Except IdError LinkKey :=
  let trimmed := Text.trim text
  match Text.cutAt? ['-', '>'] trimmed with
  | none => .error (.notLink (String.ofList trimmed))
  | some (front, back) =>
    match TaskId.read? front, TaskId.read? back with
    | some dependee, some dependant => .ok ⟨dependant, dependee⟩
    | _, _ => .error (.notLink (String.ofList trimmed))

instance : LE LinkKey :=
  ⟨fun a b => a.dependant < b.dependant ∨ a.dependant = b.dependant ∧ a.dependee ≤ b.dependee⟩

instance : LT LinkKey :=
  ⟨fun a b => a.dependant < b.dependant ∨ a.dependant = b.dependant ∧ a.dependee < b.dependee⟩

theorem le_iff {a b : LinkKey} : a ≤ b ↔
    a.dependant.number < b.dependant.number ∨
      a.dependant.number = b.dependant.number ∧ a.dependee.number ≤ b.dependee.number := by
  change (_ ∨ _ ∧ _) ↔ _
  rw [TaskId.ext_iff, TaskId.lt_iff, TaskId.le_iff]

theorem lt_iff {a b : LinkKey} : a < b ↔
    a.dependant.number < b.dependant.number ∨
      a.dependant.number = b.dependant.number ∧ a.dependee.number < b.dependee.number := by
  change (_ ∨ _ ∧ _) ↔ _
  rw [TaskId.ext_iff, TaskId.lt_iff, TaskId.lt_iff]

instance (a b : LinkKey) : Decidable (a < b) :=
  inferInstanceAs (Decidable (_ ∨ _ ∧ _))

instance : Std.IsLinearOrder LinkKey where
  le_refl a := by rw [le_iff]; omega
  le_trans a b c := by simp only [le_iff]; omega
  le_antisymm a b := by
    cases a; cases b
    simp only [le_iff, mk.injEq, TaskId.ext_iff]
    omega
  le_total a b := by simp only [le_iff]; omega

instance : Std.LawfulOrderLT LinkKey where
  lt_iff a b := by simp only [le_iff, lt_iff]; omega

theorem reversed_reversed (key : LinkKey) : key.reversed.reversed = key := rfl

end LinkKey

end Workplan
