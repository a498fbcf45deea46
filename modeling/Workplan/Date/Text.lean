/-
# Workplan.Date.Text — dates as text

A date is written `YYYY-MM-DD`. A year from 0 to 9999 has four digits and no sign; any other year
has a sign and at least four digits. Reading is looser: one or two digits for month and day, an
unsigned year of one to four digits, a signed one of any length, and blanks before and after each
number.
-/
import Workplan.Date.Civil
import Workplan.Text.Blank
import Workplan.Text.Numeral

namespace Workplan

set_option autoImplicit false

namespace Date

open Text

/-- The year as it stands in front of a date. -/
def yearText (year : Int) : List Char :=
  if 0 ≤ year ∧ year ≤ 9999 then padded 4 year.toNat
  else (if year < 0 then '-' else '+') :: padded 4 year.natAbs

/-- The written form of a date. -/
def chars (d : Date) : List Char :=
  let c := d.civil
  yearText c.year ++ '-' :: padded 2 c.month ++ '-' :: padded 2 c.day

instance : ToString Date := ⟨fun d => String.ofList d.chars⟩

/-- The number at the start of a text, from at least one and at most `most` digits. -/
def leadingNumber? (most : Nat) (text : List Char) : Option (Nat × List Char) :=
  let digits := (text.take most).takeWhile Char.isDigit
  if digits = [] then none else some (Nat.ofDigitChars 10 digits 0, text.drop digits.length)

/-- The year at the start of a text. -/
def leadingYear? : List Char → Option (Int × List Char)
  | '-' :: rest => (leadingNumber? rest.length rest).map fun found => (-(found.1 : Int), found.2)
  | '+' :: rest => (leadingNumber? rest.length rest).map fun found => ((found.1 : Int), found.2)
  | text => (leadingNumber? 4 text).map fun found => ((found.1 : Int), found.2)

/-- What follows a dash. -/
def afterDash? : List Char → Option (List Char)
  | '-' :: rest => some rest
  | _ => none

/-- Reads a date; there must be nothing but blanks after it. -/
def read? (text : List Char) : Option Date := do
  let (year, rest) ← leadingYear? (trimStart text)
  let rest ← afterDash? (trimStart rest)
  let (month, rest) ← leadingNumber? 2 (trimStart rest)
  let rest ← afterDash? (trimStart rest)
  let (day, rest) ← leadingNumber? 2 (trimStart rest)
  if isBlankText rest then ofCivil? ⟨year, month, day⟩ else none

end Date

end Workplan
