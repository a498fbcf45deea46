/-
# Workplan.Date — dates as bounded day numbers

A date is the number of days since 1 March of the year 0 in the proleptic Gregorian calendar. The
calendar is finite: it runs from 1 January -262143 to 31 December 262142, and `addDays` leaves a
date alone when the sum would fall outside.

* `day_addDays` — a step is exact or does not happen.
* `le_addDays`, `addDays_le` — a step never goes the wrong way.
* `day_next`, `day_prev` — a step of one day is exact but at the end of the calendar.
* `prev_next`, `next_prev` — such steps undo each other.
-/
import Workplan.Weekday

namespace Workplan

set_option autoImplicit false

/-- A day of the calendar, from 1 January -262143 to 31 December 262142. -/
structure Date where
  day : Int
  firstDay_le : -95745824 ≤ day := by decide
  le_lastDay : day ≤ 95745704 := by decide
  deriving DecidableEq

namespace Date

@[ext] theorem ext {a b : Date} (same : a.day = b.day) : a = b := by
  cases a; cases b; simp_all

/-- The earliest date. -/
def first : Date := ⟨-95745824, by decide, by decide⟩

/-- The latest date. -/
def last : Date := ⟨95745704, by decide, by decide⟩

instance : Inhabited Date := ⟨⟨0, by decide, by decide⟩⟩

/-! ## Order -/

instance : LE Date := ⟨fun a b => a.day ≤ b.day⟩

instance : LT Date := ⟨fun a b => a.day < b.day⟩

theorem le_iff {a b : Date} : a ≤ b ↔ a.day ≤ b.day := Iff.rfl

theorem lt_iff {a b : Date} : a < b ↔ a.day < b.day := Iff.rfl

instance (a b : Date) : Decidable (a ≤ b) := inferInstanceAs (Decidable (a.day ≤ b.day))

instance (a b : Date) : Decidable (a < b) := inferInstanceAs (Decidable (a.day < b.day))

instance : Min Date := minOfLe

instance : Max Date := maxOfLe

instance : Std.IsLinearOrder Date where
  le_refl a := Int.le_refl a.day
  le_trans _ _ _ := Int.le_trans
  le_antisymm _ _ left right := Date.ext (Int.le_antisymm left right)
  le_total a b := Int.le_total a.day b.day

instance : Std.LawfulOrderLT Date where
  lt_iff a b := by simp only [le_iff, lt_iff]; omega

instance : Std.LawfulOrderMax Date := .of_max_le_iff
  (fun a b c => by
    change (if a ≤ b then b else a) ≤ c ↔ _
    split <;> simp only [le_iff] at * <;> omega)
  (fun a b => by
    change (if a ≤ b then b else a) = a ∨ (if a ≤ b then b else a) = b
    split <;> simp)

theorem max_eq_right {a b : Date} (early : a ≤ b) : max a b = b :=
  if_pos early

theorem max_eq_left {a b : Date} (late : b ≤ a) : max a b = a := by
  change (if a ≤ b then b else a) = a
  split
  · rename_i early
    exact Std.le_antisymm late early
  · rfl

instance : Ord Date := ⟨compareOn day⟩

instance : Std.TransOrd Date := inferInstanceAs (Std.TransCmp (compareOn day))

instance : Std.LawfulEqOrd Date where
  compare_self := Std.ReflOrd.compare_self (α := Int)
  eq_of_compare same := Date.ext (Std.LawfulEqOrd.eq_of_compare same)

theorem first_le (d : Date) : first ≤ d := d.firstDay_le

theorem le_last (d : Date) : d ≤ last := d.le_lastDay

/-! ## Steps -/

/-- The date with the given day number, if the calendar has it. -/
@[inline] def ofDay? (day : Int) : Option Date :=
  if inside : -95745824 ≤ day ∧ day ≤ 95745704 then some ⟨day, inside.1, inside.2⟩ else none

theorem ofDay?_day (d : Date) : ofDay? d.day = some d := by
  simp [ofDay?, d.firstDay_le, d.le_lastDay]

theorem day_of_ofDay? {day : Int} {d : Date} (found : ofDay? day = some d) : d.day = day := by
  unfold ofDay? at found
  split at found
  · injection found with same
    rw [← same]
  · contradiction

/-- The longest step in days. -/
def longestStep : Nat := 2147483647

/-- The date `days` later, or earlier for a negative number. A step that is too long or leaves the
calendar is not taken. -/
@[inline] def addDays (d : Date) (days : Int) : Date :=
  if days.natAbs ≤ longestStep then (ofDay? (d.day + days)).getD d else d

def next (d : Date) : Date := d.addDays 1

def prev (d : Date) : Date := d.addDays (-1)

theorem day_addDays (d : Date) (days : Int) :
    (d.addDays days).day = d.day + days ∨ d.addDays days = d := by
  unfold addDays
  split
  · cases found : ofDay? (d.day + days) with
    | none => exact .inr rfl
    | some e => exact .inl (day_of_ofDay? found)
  · exact .inr rfl

theorem le_addDays (d : Date) {days : Int} (ahead : 0 ≤ days) : d ≤ d.addDays days := by
  rcases day_addDays d days with exact | same
  · rw [le_iff]; omega
  · rw [same]; exact Int.le_refl _

theorem addDays_le (d : Date) {days : Int} (back : days ≤ 0) : d.addDays days ≤ d := by
  rcases day_addDays d days with exact | same
  · rw [le_iff]; omega
  · rw [same]; exact Int.le_refl _

theorem day_next (d : Date) : d.next.day = min (d.day + 1) last.day := by
  have upper := d.le_lastDay
  have lower := d.firstDay_le
  by_cases inside : d.day + 1 ≤ 95745704
  · have within : -95745824 ≤ d.day + 1 ∧ d.day + 1 ≤ 95745704 := by omega
    simp only [next, addDays, longestStep, ofDay?, within, last]
    simp
    omega
  · have outside : ¬(-95745824 ≤ d.day + 1 ∧ d.day + 1 ≤ 95745704) := by omega
    simp only [next, addDays, longestStep, ofDay?, outside, last]
    simp
    omega

theorem day_prev (d : Date) : d.prev.day = max (d.day - 1) first.day := by
  have upper := d.le_lastDay
  have lower := d.firstDay_le
  by_cases inside : -95745824 ≤ d.day + -1
  · have within : -95745824 ≤ d.day + -1 ∧ d.day + -1 ≤ 95745704 := by omega
    simp only [prev, addDays, longestStep, ofDay?, within, first]
    simp
    omega
  · have outside : ¬(-95745824 ≤ d.day + -1 ∧ d.day + -1 ≤ 95745704) := by omega
    simp only [prev, addDays, longestStep, ofDay?, outside, first]
    simp
    omega

theorem lt_next {d : Date} (inside : d < last) : d < d.next := by
  have next := d.day_next
  rw [lt_iff] at inside ⊢
  omega

theorem prev_lt {d : Date} (inside : first < d) : d.prev < d := by
  have previous := d.day_prev
  rw [lt_iff] at inside ⊢
  omega

theorem prev_next {d : Date} (inside : d < last) : d.next.prev = d := by
  have next := d.day_next
  have previous := d.next.day_prev
  have lower := le_iff.mp d.first_le
  rw [lt_iff] at inside
  exact ext (by omega)

theorem next_prev {d : Date} (inside : first < d) : d.prev.next = d := by
  have previous := d.day_prev
  have next := d.prev.day_next
  have upper := le_iff.mp d.le_last
  rw [lt_iff] at inside
  exact ext (by omega)

theorem le_prev_of_lt {a b : Date} (less : a < b) : a ≤ b.prev := by
  have previous := b.day_prev
  have lower := le_iff.mp a.first_le
  rw [lt_iff] at less
  rw [le_iff]
  omega

theorem lt_iff_le_prev {a b : Date} (inside : first < b) : a < b ↔ a ≤ b.prev :=
  ⟨le_prev_of_lt, fun early => Std.lt_of_le_of_lt early (prev_lt inside)⟩

/-- 1 March of the year 0 is a Wednesday. -/
def weekday (d : Date) : Weekday :=
  Weekday.fromMonday ((d.day + 2) % 7).toNat

end Date

end Workplan
