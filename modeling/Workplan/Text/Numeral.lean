/-
# Workplan.Text.Numeral — the digits of whole numbers

A numeral is one or more ASCII digits, leading zeros allowed, after an optional sign. Unsigned
numbers take `+` only, so `-0` is none of them.

* `digits?_toDigits` — the digits of a number read back as that number.
* `natural?_toDigits`, `integer?_decimal` — so do the printed forms of both kinds.
-/
namespace Workplan.Text

set_option autoImplicit false

/-- The value of a text of digits; no digit at all is no number. -/
def digits? (text : List Char) : Option Nat :=
  if text ≠ [] ∧ text.all Char.isDigit then some (Nat.ofDigitChars 10 text 0) else none

/-- A numeral without a minus sign. -/
def natural? : List Char → Option Nat
  | '+' :: rest => digits? rest
  | text => digits? text

/-- A numeral with or without a sign. -/
def integer? : List Char → Option Int
  | '+' :: rest => (digits? rest).map Int.ofNat
  | '-' :: rest => (digits? rest).map fun n => -Int.ofNat n
  | text => (digits? text).map Int.ofNat

/-- The shortest numeral of a number, with a sign only below zero. -/
def decimal : Int → List Char
  | .ofNat n => Nat.toDigits 10 n
  | .negSucc n => '-' :: Nat.toDigits 10 (n + 1)

/-- The value of a hexadecimal digit. -/
def hexDigit? (c : Char) : Option Nat :=
  if c.isDigit then some (c.toNat - '0'.toNat)
  else if 'a' ≤ c ∧ c ≤ 'f' then some (c.toNat - 'a'.toNat + 10)
  else if 'A' ≤ c ∧ c ≤ 'F' then some (c.toNat - 'A'.toNat + 10)
  else none

/-- The digits of a number, with zeros in front up to the given width. -/
def padded (width n : Nat) : List Char :=
  List.replicate (width - (Nat.toDigits 10 n).length) '0' ++ Nat.toDigits 10 n

theorem toDigits_ne_nil (n : Nat) : Nat.toDigits 10 n ≠ [] := by
  have := Nat.length_toDigits_pos (b := 10) (n := n)
  intro empty
  simp [empty] at this

theorem all_isDigit_toDigits (n : Nat) : (Nat.toDigits 10 n).all Char.isDigit = true := by
  rw [List.all_eq_true]
  intro c member
  exact Nat.isDigit_of_mem_toDigits (by decide) (by decide) member

theorem digits?_toDigits (n : Nat) : digits? (Nat.toDigits 10 n) = some n := by
  simp only [digits?, toDigits_ne_nil, all_isDigit_toDigits, ne_eq, not_false_eq_true, and_self,
    if_true]
  exact congrArg some (Nat.ofDigitChars_toDigits (by decide) (by decide))

/-- The first character of printed digits is a digit, so it is no sign. -/
theorem toDigits_eq_cons (n : Nat) : ∃ c rest, Nat.toDigits 10 n = c :: rest ∧ c.isDigit = true := by
  have digits := all_isDigit_toDigits n
  cases shape : Nat.toDigits 10 n with
  | nil => exact absurd shape (toDigits_ne_nil n)
  | cons c rest =>
    rw [shape] at digits
    exact ⟨c, rest, rfl, by simp only [List.all_cons, Bool.and_eq_true] at digits; exact digits.1⟩

theorem natural?_toDigits (n : Nat) : natural? (Nat.toDigits 10 n) = some n := by
  obtain ⟨c, rest, shape, digit⟩ := toDigits_eq_cons n
  have same := digits?_toDigits n
  rw [shape] at same ⊢
  unfold natural?
  split
  · rename_i equal
    injection equal with head
    subst head
    exact absurd digit (by decide)
  · exact same

theorem integer?_toDigits (n : Nat) : integer? (Nat.toDigits 10 n) = some (n : Int) := by
  obtain ⟨c, rest, shape, digit⟩ := toDigits_eq_cons n
  have same := digits?_toDigits n
  rw [shape] at same ⊢
  unfold integer?
  split
  · rename_i equal
    injection equal with head
    subst head
    exact absurd digit (by decide)
  · rename_i equal
    injection equal with head
    subst head
    exact absurd digit (by decide)
  · simp [same]

/-- A printed number has no character but digits and a dash. -/
theorem mem_decimal {i : Int} {c : Char} (member : c ∈ decimal i) : c.isDigit = true ∨ c = '-' := by
  cases i with
  | ofNat n => exact .inl (List.all_eq_true.mp (all_isDigit_toDigits n) c member)
  | negSucc n =>
    rcases List.mem_cons.mp member with rfl | digit
    · exact .inr rfl
    · exact .inl (List.all_eq_true.mp (all_isDigit_toDigits (n + 1)) c digit)

theorem integer?_decimal (i : Int) : integer? (decimal i) = some i := by
  cases i with
  | ofNat n => exact integer?_toDigits n
  | negSucc n => simp [decimal, integer?, digits?_toDigits, Int.negSucc_eq]

end Workplan.Text
