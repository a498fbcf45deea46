/-
# Workplan.Weekday — the days of the week

A day is written as its English name, in full or by the first three letters, in any mix of
upper and lower case. `names_read` says that every such name reads back as its day.
-/
namespace Workplan

set_option autoImplicit false

inductive Weekday where
  | monday | tuesday | wednesday | thursday | friday | saturday | sunday
  deriving DecidableEq, Repr, Inhabited

namespace Weekday

/-- The week in order, Monday first. -/
def all : List Weekday :=
  [monday, tuesday, wednesday, thursday, friday, saturday, sunday]

theorem mem_all (day : Weekday) : day ∈ all := by cases day <;> decide

/-- The full English name. -/
def fullName : Weekday → String
  | monday => "Monday"
  | tuesday => "Tuesday"
  | wednesday => "Wednesday"
  | thursday => "Thursday"
  | friday => "Friday"
  | saturday => "Saturday"
  | sunday => "Sunday"

/-- The first three letters of the name. -/
def name : Weekday → String
  | monday => "Mon"
  | tuesday => "Tue"
  | wednesday => "Wed"
  | thursday => "Thu"
  | friday => "Fri"
  | saturday => "Sat"
  | sunday => "Sun"

/-- Whether the text is a name of the day, letters of either case. -/
def isNamed (text : List Char) (day : Weekday) : Bool :=
  let lower := text.map Char.toLower
  lower = day.name.toList.map Char.toLower || lower = day.fullName.toList.map Char.toLower

/-- The day that the text names. -/
def read? (text : List Char) : Option Weekday :=
  all.find? (isNamed text)

theorem names_read (day : Weekday) :
    read? day.name.toList = some day ∧ read? day.fullName.toList = some day := by
  cases day <;> decide

/-- The day that comes `count` days after a Monday. -/
def fromMonday (count : Nat) : Weekday :=
  match count % 7 with
  | 0 => monday
  | 1 => tuesday
  | 2 => wednesday
  | 3 => thursday
  | 4 => friday
  | 5 => saturday
  | _ => sunday

end Weekday

end Workplan
