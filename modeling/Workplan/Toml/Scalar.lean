/-
# Workplan.Toml.Scalar — numbers, dates and times

The values that are one word without quotes: the two truth values, whole numbers in four bases, real
numbers, dates, times of day, and dates with a time of day.
-/
import Workplan.Date.Civil
import Workplan.Decimal
import Workplan.Document
import Workplan.Text.Numeral

namespace Workplan.Toml

set_option autoImplicit false

/-! ## Numbers -/

/-- Digits, with single underscores between them, without the underscores. -/
def spacedDigits? (isDigit : Char → Bool) (text : List Char) : Option (List Char) :=
  let edge (c? : Option Char) : Bool := c?.any isDigit
  let rec joined : List Char → Bool
    | '_' :: '_' :: _ => false
    | _ :: rest => joined rest
    | [] => true
  if edge text.head? && edge text.getLast? && joined text &&
      text.all (fun c => isDigit c || c = '_') then
    some (text.filter (· ≠ '_'))
  else none

/-- The digits of a whole number in decimal; only zero begins with a zero. -/
def wholeDigits? (text : List Char) : Option (List Char) := do
  let digits ← spacedDigits? Char.isDigit text
  if digits.head? = some '0' ∧ digits.length ≠ 1 then none else some digits

/-- The digits without a sign, and whether the sign was a minus. -/
def unsigned : List Char → Bool × List Char
  | '-' :: rest => (true, rest)
  | '+' :: rest => (false, rest)
  | text => (false, text)

def fitsWord (n : Int) : Bool := -9223372036854775808 ≤ n && n ≤ 9223372036854775807

/-- A whole number in base 2, 8 or 16, after its base mark. -/
def basedInteger? (base : Nat) (text : List Char) : Option Int := do
  let isDigit (c : Char) : Bool := (Text.hexDigit? c).any (· < base)
  let digits ← spacedDigits? isDigit text
  let values ← digits.mapM Text.hexDigit?
  let number := values.foldl (fun total digit => base * total + digit) 0
  if fitsWord number then some number else none

/-- A whole number that fits a signed word of 64 bits. -/
def integer? : List Char → Option Int
  | '0' :: 'x' :: rest => basedInteger? 16 rest
  | '0' :: 'o' :: rest => basedInteger? 8 rest
  | '0' :: 'b' :: rest => basedInteger? 2 rest
  | text => do
    let (negative, text) := unsigned text
    let digits ← wholeDigits? text
    let size : Int := Nat.ofDigitChars 10 digits 0
    let number := if negative then -size else size
    if fitsWord number then some number else none

/-- The exponent of a number: a mark, an optional sign and digits. -/
def exponent? : List Char → Option Int
  | [] => none
  | c :: rest => do
    if c ≠ 'e' ∧ c ≠ 'E' then none
    let (negative, text) := unsigned rest
    let size : Int := Nat.ofDigitChars 10 (← spacedDigits? Char.isDigit text) 0
    return if negative then -size else size

/-- What follows the whole part of a number: digits after a point, an exponent, or both. -/
def fraction? : List Char → Option (List Char × Int)
  | '.' :: rest => do
    let front := rest.takeWhile fun c => c.isDigit || c = '_'
    let tail := rest.drop front.length
    let digits ← spacedDigits? Char.isDigit front
    return (digits, ← if tail = [] then some 0 else exponent? tail)
  | text => do return ([], ← exponent? text)

/-- A number with a fraction or an exponent, or one of the special numbers. One that is too great for
floating point is refused; one that is as far below zero is not. -/
def isReal (text : List Char) : Bool :=
  let (negative, text) := unsigned text
  let front := text.takeWhile fun c => c.isDigit || c = '_'
  text = "inf".toList || text = "nan".toList ||
    (do
      let whole ← wholeDigits? front
      let (part, exponent) ← fraction? (text.drop front.length)
      let size := Nat.ofDigitChars 10 (whole ++ part) 0
      return negative || !Decimal.exceedsFloat ⟨size, exponent - part.length⟩).getD false

/-! ## Dates and times -/

/-- A number of exactly so many digits, and the rest. -/
def fixedNumber? (width : Nat) (text : List Char) : Option (Nat × List Char) :=
  let digits := text.take width
  if digits.length = width && digits.all Char.isDigit then
    some (Nat.ofDigitChars 10 digits 0, text.drop width)
  else none

/-- What follows the given character. -/
def after? (c : Char) : List Char → Option (List Char)
  | d :: rest => if d = c then some rest else none
  | [] => none

/-- What follows a date on the calendar. -/
def afterDate? (text : List Char) : Option (List Char) := do
  let (year, rest) ← fixedNumber? 4 text
  let (month, rest) ← fixedNumber? 2 (← after? '-' rest)
  let (day, rest) ← fixedNumber? 2 (← after? '-' rest)
  if (⟨year, month, day⟩ : Civil).Named then some rest else none

/-- What follows a time of day. -/
def afterTime? (text : List Char) : Option (List Char) := do
  let (hour, rest) ← fixedNumber? 2 text
  let (minute, rest) ← fixedNumber? 2 (← after? ':' rest)
  let (second, rest) ← fixedNumber? 2 (← after? ':' rest)
  if 23 < hour ∨ 59 < minute ∨ 60 < second then none
  match rest with
  | '.' :: digits =>
    let tail := digits.dropWhile Char.isDigit
    if tail.length = digits.length then none else some tail
  | _ => some rest

/-- Whether the text is nothing, or an offset from universal time. -/
def isOffset : List Char → Bool
  | [] => true
  | [c] => c = 'Z' || c = 'z'
  | c :: rest =>
    (c = '+' || c = '-') &&
      (do
        let (hour, rest) ← fixedNumber? 2 rest
        let (minute, rest) ← fixedNumber? 2 (← after? ':' rest)
        if hour ≤ 23 ∧ minute ≤ 59 ∧ rest = [] then some () else none).isSome

/-- A date, a time of day, or both with an offset or without. -/
def isMoment (text : List Char) : Bool :=
  match afterDate? text with
  | some [] => true
  | some (c :: rest) =>
    (c = 'T' || c = 't' || c = ' ') && ((afterTime? rest).map isOffset).getD false
  | none => afterTime? text = some []

/-! ## Words -/

def isWordChar (c : Char) : Bool :=
  c.isAlphanum || c = '+' || c = '-' || c = '_' || c = '.' || c = ':'

/-- The word at the front of a text; a date takes a time of day after one blank with it. -/
def word (text : List Char) : List Char :=
  let front := text.takeWhile isWordChar
  match afterDate? front, text.drop front.length with
  | some [], ' ' :: rest =>
    let time := rest.takeWhile isWordChar
    if (afterTime? time).isSome then front ++ ' ' :: time else front
  | _, _ => front

/-- A value that is one word. -/
def scalar? (text : List Char) : Option (Document × List Char) :=
  let front := word text
  let rest := text.drop front.length
  if front = "true".toList then some (.bool true, rest)
  else if front = "false".toList then some (.bool false, rest)
  else
    match integer? front with
    | some number => some (.integer number, rest)
    | none =>
      if isReal front then some (.real (String.ofList front), rest)
      else if isMoment front then some (.moment (String.ofList front), rest)
      else none

end Workplan.Toml
