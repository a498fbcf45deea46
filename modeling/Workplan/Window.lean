/-
# Workplan.Window — dates between two bounds

A window holds the dates from a lower to an upper bound; either bound may be missing. Two windows
meet in a window unless they lie apart.

* `mem_intersect` — the dates in the meeting of two windows are those in both.
-/
import Workplan.Date

namespace Workplan

set_option autoImplicit false

/-- A closed range of dates, open ended on a side without a bound. -/
structure Window where
  lower : Option Date := none
  upper : Option Date := none
  deriving DecidableEq

namespace Window

/-- All dates. -/
def all : Window := {}

def atLeast (date : Date) : Window := { lower := some date }

def atMost (date : Date) : Window := { upper := some date }

def between (lower upper : Date) : Window := { lower := some lower, upper := some upper }

def isAll (w : Window) : Bool := w = all

/-- Whether a date lies in the window. -/
def Holds (w : Window) (date : Date) : Prop :=
  (∀ l ∈ w.lower, l ≤ date) ∧ ∀ u ∈ w.upper, date ≤ u

/-- The later of two lower bounds. -/
def joinLower : Option Date → Option Date → Option Date
  | some a, some b => some (max a b)
  | some a, none => some a
  | none, b => b

/-- The earlier of two upper bounds. -/
def joinUpper : Option Date → Option Date → Option Date
  | some a, some b => some (min a b)
  | some a, none => some a
  | none, b => b

/-- The dates in both windows, if their bounds leave any. -/
def intersect (v w : Window) : Option Window :=
  let lower := joinLower v.lower w.lower
  let upper := joinUpper v.upper w.upper
  match lower, upper with
  | some l, some u => if u < l then none else some ⟨lower, upper⟩
  | _, _ => some ⟨lower, upper⟩

theorem max_le_iff {a b c : Date} : max a b ≤ c ↔ a ≤ c ∧ b ≤ c := by
  change (if a ≤ b then b else a) ≤ c ↔ _
  split <;> simp only [Date.le_iff] at * <;> omega

theorem le_min_iff {a b c : Date} : c ≤ min a b ↔ c ≤ a ∧ c ≤ b := by
  change c ≤ (if a ≤ b then a else b) ↔ _
  split <;> simp only [Date.le_iff] at * <;> omega

theorem holds_joinLower {a b : Option Date} {date : Date} :
    (∀ l ∈ joinLower a b, l ≤ date) ↔ (∀ l ∈ a, l ≤ date) ∧ ∀ l ∈ b, l ≤ date := by
  cases a <;> cases b <;> simp [joinLower, max_le_iff]

theorem holds_joinUpper {a b : Option Date} {date : Date} :
    (∀ u ∈ joinUpper a b, date ≤ u) ↔ (∀ u ∈ a, date ≤ u) ∧ ∀ u ∈ b, date ≤ u := by
  cases a <;> cases b <;> simp [joinUpper, le_min_iff]

theorem mem_intersect {v w : Window} {date : Date} :
    (∃ both, v.intersect w = some both ∧ both.Holds date) ↔ v.Holds date ∧ w.Holds date := by
  have bounds : (⟨joinLower v.lower w.lower, joinUpper v.upper w.upper⟩ : Window).Holds date ↔
      v.Holds date ∧ w.Holds date := by
    simp only [Holds, holds_joinLower, holds_joinUpper]
    constructor
    · rintro ⟨⟨a, b⟩, c, d⟩; exact ⟨⟨a, c⟩, b, d⟩
    · rintro ⟨⟨a, c⟩, b, d⟩; exact ⟨⟨a, b⟩, c, d⟩
  rw [← bounds]
  simp only [intersect]
  split
  · rename_i l u lower upper
    split
    · rename_i apart
      simp only [reduceCtorEq, false_and, exists_false, false_iff]
      intro holds
      have above : l ≤ date := holds.1 l lower
      have below : date ≤ u := holds.2 u upper
      simp only [Date.le_iff, Date.lt_iff] at *
      omega
    · simp [lower, upper]
  · simp

end Window

end Workplan
