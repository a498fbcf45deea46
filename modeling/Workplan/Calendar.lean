/-
# Workplan.Calendar — counting in working days

A calendar says of every date whether it is a working day; nothing else is asked of it. A span of
dates is half open, so the day a span ends on is not worked. The walks give up when they meet too
many days off in a row, so that a calendar without working days cannot hold them up.

* `shift` passes working days on the way forward and enters working days on the way back; `shift_zero`.
* `closestFrom`, `closestTo` — the nearest working day at or after, at or before, a date.
* `between` — the number of working days from one date up to another, negative if they are
  reversed; `between_self`.

The stock calendar is a `WorkWeek`: some days of the week are off, and so are the single days named as
holidays. Holidays are kept in order and once each, in a search tree, for there may be very many of them
and every walk along the calendar asks for each of its days.
-/
import Std.Data.TreeSet.Lemmas
import Workplan.Date

namespace Workplan

set_option autoImplicit false

/-- The working days. -/
structure Calendar where
  works : Date → Bool

namespace Calendar

/-- Every day is a working day. -/
def everyDay : Calendar := ⟨fun _ => true⟩

/-- The longest run of days off that is searched for a working day. -/
def patience : Nat := 3660

/-- The first working day among the given number of days from a date on. -/
def workingFrom? (cal : Calendar) : Nat → Date → Option Date
  | 0, _ => none
  | days + 1, d => if cal.works d then some d else cal.workingFrom? days d.next

/-- The first working day among the given number of days from a date back. -/
def workingTo? (cal : Calendar) : Nat → Date → Option Date
  | 0, _ => none
  | days + 1, d => if cal.works d then some d else cal.workingTo? days d.prev

/-- The day after the given number of working days have passed. -/
def ahead? (cal : Calendar) : Nat → Date → Option Date
  | 0, d => some d
  | count + 1, d =>
    match cal.workingFrom? (patience + 1) d with
    | some worked => cal.ahead? count worked.next
    | none => none

/-- The last day reached when the given number of working days have been entered. -/
def back? (cal : Calendar) : Nat → Date → Option Date
  | 0, d => some d
  | count + 1, d =>
    match cal.workingTo? (patience + 1) d.prev with
    | some worked => cal.back? count worked
    | none => none

/-- The date that lies a number of working days later, or earlier for a negative number. Where the
walk gives up, the number counts calendar days instead. -/
def shift (cal : Calendar) (d : Date) (days : Int) : Date :=
  if 0 ≤ days then (cal.ahead? days.natAbs d).getD (d.addDays days)
  else (cal.back? days.natAbs d).getD (d.addDays days)

/-- The closest working day at or after a date; the date itself if none is near. -/
def closestFrom (cal : Calendar) (d : Date) : Date :=
  (cal.workingFrom? patience d).getD d

/-- The closest working day at or before a date; the date itself if none is near. -/
def closestTo (cal : Calendar) (d : Date) : Date :=
  (cal.workingTo? patience d).getD d

/-- The number of working days among the given number of days from a date on, added to a total. -/
def countFrom (cal : Calendar) : Nat → Date → Nat → Nat
  | 0, _, total => total
  | days + 1, d, total => cal.countFrom days d.next (if cal.works d then total + 1 else total)

/-- The number of working days from a date up to another, negative if the other comes first. -/
def between (cal : Calendar) (start finish : Date) : Int :=
  if start ≤ finish then cal.countFrom (finish.day - start.day).toNat start 0
  else -(cal.countFrom (start.day - finish.day).toNat finish 0 : Int)

@[simp] theorem shift_zero (cal : Calendar) (d : Date) : cal.shift d 0 = d := rfl

theorem countFrom_eq_add (cal : Calendar) (days : Nat) (d : Date) (total : Nat) :
    cal.countFrom days d total = total + cal.countFrom days d 0 := by
  induction days generalizing d total with
  | zero => rfl
  | succ days ih =>
    simp only [countFrom]
    rw [ih d.next, ih d.next (if cal.works d then 0 + 1 else 0)]
    split <;> omega

theorem between_self (cal : Calendar) (d : Date) : cal.between d d = 0 := by
  simp only [between, Int.sub_self, Int.toNat_zero, countFrom]
  split <;> rfl

end Calendar

/-- Days of the week that are off, and single days off. -/
structure WorkWeek where
  daysOff : List Weekday := [.saturday, .sunday]
  holidays : Std.TreeSet Date := ∅

namespace WorkWeek

def works (week : WorkWeek) (d : Date) : Bool :=
  !(week.daysOff.contains d.weekday || week.holidays.contains d)

def calendar (week : WorkWeek) : Calendar := ⟨week.works⟩

/-- Adds a holiday. -/
def addHoliday (week : WorkWeek) (d : Date) : WorkWeek :=
  { week with holidays := week.holidays.insert d }

/-- The weekly days off in the order of the week. -/
def weekends (week : WorkWeek) : List Weekday :=
  Weekday.all.filter week.daysOff.contains

/-- A new holiday is off, and no other day changes. -/
theorem works_addHoliday (week : WorkWeek) (d e : Date) :
    (week.addHoliday d).works e = (week.works e && e ≠ d) := by
  simp only [works, addHoliday, Std.TreeSet.contains_insert, Bool.beq_eq_decide_eq,
    Std.LawfulEqCmp.compare_eq_iff_eq]
  by_cases same : d = e
  · simp [same]
  · simp [same, Ne.symm same]

end WorkWeek

end Workplan
