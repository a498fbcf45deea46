/-
# Workplan.TaskId — the numbers that name tasks

A task is named by a number below 2^32. Its text is the plain decimal number; reading allows
blanks around it, leading zeros and a plus sign.

* `ofNat?_number`, `toString_eq` — a number names one task, written as its digits.
* `read?_chars` — and read from them.
-/
import Workplan.Text.Blank
import Workplan.Text.Numeral

namespace Workplan

set_option autoImplicit false

structure TaskId where
  number : Nat
  number_lt : number < 4294967296 := by decide
  deriving DecidableEq

namespace TaskId

@[ext] theorem ext {a b : TaskId} (same : a.number = b.number) : a = b := by
  cases a; cases b; simp_all

instance : Inhabited TaskId := ⟨⟨0, by decide⟩⟩

instance : ToString TaskId := ⟨fun t => toString t.number⟩

instance : LE TaskId := ⟨fun a b => a.number ≤ b.number⟩

instance : LT TaskId := ⟨fun a b => a.number < b.number⟩

theorem le_iff {a b : TaskId} : a ≤ b ↔ a.number ≤ b.number := Iff.rfl

theorem lt_iff {a b : TaskId} : a < b ↔ a.number < b.number := Iff.rfl

instance (a b : TaskId) : Decidable (a ≤ b) := inferInstanceAs (Decidable (a.number ≤ b.number))

instance (a b : TaskId) : Decidable (a < b) := inferInstanceAs (Decidable (a.number < b.number))

instance : Std.IsLinearOrder TaskId where
  le_refl a := Nat.le_refl a.number
  le_trans _ _ _ := Nat.le_trans
  le_antisymm _ _ left right := TaskId.ext (Nat.le_antisymm left right)
  le_total a b := Nat.le_total a.number b.number

instance : Std.LawfulOrderLT TaskId where
  lt_iff a b := by simp only [le_iff, lt_iff]; omega

/-- The name with the least number. -/
def least : TaskId := { number := 0 }

/-- The name with the greatest number. -/
def greatest : TaskId := { number := 4294967295 }

theorem least_le (t : TaskId) : least ≤ t := Nat.zero_le t.number

theorem le_greatest (t : TaskId) : t ≤ greatest := Nat.le_of_lt_succ t.number_lt

def ofNat? (n : Nat) : Option TaskId :=
  if fits : n < 4294967296 then some ⟨n, fits⟩ else none

theorem ofNat?_number (t : TaskId) : ofNat? t.number = some t := by
  simp [ofNat?, t.number_lt]

/-- The task that a text names. -/
def read? (text : List Char) : Option TaskId :=
  (Text.natural? (Text.trim text)).bind ofNat?

/-- The written form of a task's name. -/
def chars (t : TaskId) : List Char := Nat.toDigits 10 t.number

theorem isDigit_of_mem_chars {task : TaskId} {c : Char} (member : c ∈ task.chars) :
    c.isDigit = true :=
  List.all_eq_true.mp (Text.all_isDigit_toDigits task.number) c member

theorem read?_chars (task : TaskId) : read? task.chars = some task := by
  have visible : ∀ c ∈ task.chars, Text.isBlank c = false := fun c member =>
    Text.isBlank_of_isDigit (isDigit_of_mem_chars member)
  rw [read?, Text.trim_eq_self visible, chars, Text.natural?_toDigits]
  exact ofNat?_number task

theorem toString_eq (t : TaskId) : toString t = String.ofList t.chars :=
  Nat.repr_eq_ofList_toDigits

end TaskId

end Workplan
