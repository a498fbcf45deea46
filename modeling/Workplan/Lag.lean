/-
# Workplan.Lag — numbers of working days

A lag is a signed word of 64 bits, and is negated as such a word is.

* `opposite_days_iff` — every lag but the least has its opposite.
* `read?_decimal` — the decimal form reads back.
-/
import Workplan.Text.Numeral

namespace Workplan

set_option autoImplicit false

/-- A number of working days that fits a signed word of 64 bits. -/
structure Lag where
  days : Int
  le_days : -9223372036854775808 ≤ days := by decide
  days_le : days ≤ 9223372036854775807 := by decide
  deriving DecidableEq

namespace Lag

@[ext] theorem ext {a b : Lag} (same : a.days = b.days) : a = b := by
  cases a; cases b; simp_all

def zero : Lag := ⟨0, by decide, by decide⟩

def least : Lag := ⟨-9223372036854775808, by decide, by decide⟩

def greatest : Lag := ⟨9223372036854775807, by decide, by decide⟩

instance : Inhabited Lag := ⟨zero⟩

instance : ToString Lag := ⟨fun lag => toString lag.days⟩

def ofInt? (days : Int) : Option Lag :=
  if fits : -9223372036854775808 ≤ days ∧ days ≤ 9223372036854775807 then
    some ⟨days, fits.1, fits.2⟩
  else none

theorem ofInt?_days (lag : Lag) : ofInt? lag.days = some lag := by
  simp [ofInt?, lag.le_days, lag.days_le]

/-- The opposite of a number of days as a signed word of 64 bits has it. The least word has none: it
comes out as itself, and a program that checks its arithmetic stops there instead. -/
def opposite (days : Int) : Int := (-days).bmod 18446744073709551616

theorem opposite_eq_neg {days : Int} (above : -9223372036854775808 < days)
    (below : days ≤ 9223372036854775808) : opposite days = -days :=
  Int.bmod_eq_of_le (by omega) (by omega)

theorem opposite_days_iff {lag : Lag} : opposite lag.days = -lag.days ↔ lag ≠ least := by
  constructor
  · rintro negated rfl
    contradiction
  · intro apart
    have above := lag.le_days
    have below := lag.days_le
    have differ : lag.days ≠ -9223372036854775808 := fun same => apart (ext same)
    exact opposite_eq_neg (by omega) (by omega)

/-- Reads a signed number as it stands. -/
def read? (text : List Char) : Option Lag :=
  (Text.integer? text).bind ofInt?

theorem read?_decimal (lag : Lag) : read? (Text.decimal lag.days) = some lag := by
  rw [read?, Text.integer?_decimal]
  exact ofInt?_days lag

end Lag

end Workplan
