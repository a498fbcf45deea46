/-
# Workplan.Proofs.WrittenDates — written dates read back

A date is written by its year, month and day, each padded with zeros, and the year with a sign where four
digits do not hold it. All of these are read back as they were written, over the whole calendar.

* `leadingNumber?_padded` — a padded number is read up to the first character that is no digit;
* `leadingYear?_yearText` — a year of either form is read up to the dash after it;
* `read?_chars` — a written date is read as that date.
-/
import Workplan.Date.Text
import Workplan.Text.Split

namespace Workplan

set_option autoImplicit false

namespace Text

theorem ofDigitChars_padded (width n : Nat) : Nat.ofDigitChars 10 (padded width n) 0 = n := by
  simp [padded, Nat.ofDigitChars_append]

theorem isDigit_of_mem_padded {width n : Nat} {c : Char} (member : c ∈ padded width n) :
    c.isDigit = true := by
  rcases List.mem_append.mp member with zero | digit
  · rw [List.eq_of_mem_replicate zero]
    decide
  · exact List.all_eq_true.mp (all_isDigit_toDigits n) c digit

theorem padded_eq_cons (width n : Nat) :
    ∃ c rest, padded width n = c :: rest ∧ c.isDigit = true := by
  have visible : padded width n ≠ [] := by simp [padded]
  obtain ⟨c, rest, shape⟩ := List.exists_cons_of_ne_nil visible
  exact ⟨c, rest, shape, isDigit_of_mem_padded (by rw [shape]; exact .head rest)⟩

theorem length_padded {width n : Nat} (fits : (Nat.toDigits 10 n).length ≤ width) :
    (padded width n).length = width := by
  simp [padded]
  omega

end Text

namespace Date

open Text

variable {rest : List Char}

theorem trimStart_cons {c : Char} (visible : isBlank c = false) (rest : List Char) :
    trimStart (c :: rest) = c :: rest :=
  trimStart_eq_self fun d first => by rwa [← Option.some.inj first]

theorem trimStart_padded (width n : Nat) (rest : List Char) :
    trimStart (padded width n ++ rest) = padded width n ++ rest := by
  obtain ⟨c, more, shape, digit⟩ := padded_eq_cons width n
  rw [shape, List.cons_append, trimStart_cons (isBlank_of_isDigit digit)]

theorem trimStart_yearText (year : Int) (rest : List Char) :
    trimStart (yearText year ++ rest) = yearText year ++ rest := by
  unfold yearText
  split
  · exact trimStart_padded 4 year.toNat rest
  · split <;> exact trimStart_cons (by decide) _

theorem isDigit_dash (rest : List Char) (c : Char) (first : ('-' :: rest).head? = some c) :
    c.isDigit = false := by
  obtain rfl := Option.some.inj first
  decide

theorem leadingNumber?_padded {width n most : Nat} (room : (padded width n).length ≤ most)
    (stop : ∀ c, rest.head? = some c → c.isDigit = false) :
    leadingNumber? most (padded width n ++ rest) = some (n, rest) := by
  have digits (c : Char) (member : c ∈ padded width n) : c.isDigit = true :=
    isDigit_of_mem_padded member
  have stopWithin (c : Char) (first : (rest.take (most - (padded width n).length)).head? = some c) :
      c.isDigit = false := by
    refine stop c ?_
    rw [List.head?_take] at first
    split at first
    · contradiction
    · exact first
  have taken := takeWhile_append digits stopWithin
  obtain ⟨mark, more, shape, -⟩ := padded_eq_cons width n
  have visible : padded width n ≠ [] := by simp [shape]
  simp only [leadingNumber?, List.take_append, List.take_of_length_le room, taken, visible, if_false,
    ofDigitChars_padded, List.drop_left]

theorem leadingYear?_yearText (year : Int) (rest : List Char) :
    leadingYear? (yearText year ++ '-' :: rest) = some (year, '-' :: rest) := by
  unfold yearText
  split
  · rename_i four
    have small : (Nat.toDigits 10 year.toNat).length ≤ 4 :=
      (Nat.length_toDigits_le_iff (by decide) (by decide)).mpr (by omega)
    have length : (padded 4 year.toNat).length = 4 := length_padded small
    have read := leadingNumber?_padded (Nat.le_of_eq length) (isDigit_dash rest)
    obtain ⟨mark, more, shape, digit⟩ := padded_eq_cons 4 year.toNat
    have unsigned : leadingYear? (padded 4 year.toNat ++ '-' :: rest) =
        (leadingNumber? 4 (padded 4 year.toNat ++ '-' :: rest)).map
          fun found => ((found.1 : Int), found.2) := by
      refine leadingYear?.eq_3 _ (fun more same => ?_) fun more same => ?_ <;>
        · rw [shape, List.cons_append] at same
          rw [(List.cons.inj same).1] at digit
          contradiction
    rw [unsigned, read, Option.map_some, Int.toNat_of_nonneg four.1]
  · have room : (padded 4 year.natAbs).length ≤ (padded 4 year.natAbs ++ '-' :: rest).length := by
      simp
    have read := leadingNumber?_padded room (isDigit_dash rest)
    split
    · rename_i below
      have value : -(year.natAbs : Int) = year := by omega
      rw [List.cons_append, leadingYear?, read, Option.map_some, value]
    · rename_i above
      have value : (year.natAbs : Int) = year := by omega
      rw [List.cons_append, leadingYear?, read, Option.map_some, value]

theorem month_le {c : Civil} (named : c.Named) : c.month ≤ 12 ∧ c.day ≤ 31 := by
  obtain ⟨first, last⟩ := named
  unfold Civil.monthLength at last
  split at last
  · split at last <;> omega
  all_goals omega

theorem read?_chars (d : Date) : read? d.chars = some d := by
  obtain ⟨month, day⟩ := month_le (named_civil d)
  have two (n : Nat) (small : n ≤ 31) : (padded 2 n).length ≤ 2 :=
    Nat.le_of_eq (length_padded
      ((Nat.length_toDigits_le_iff (by decide) (by decide)).mpr (by omega)))
  have dash (rest : List Char) : trimStart ('-' :: rest) = '-' :: rest :=
    trimStart_cons (by decide) rest
  have monthRead (rest : List Char) :
      leadingNumber? 2 (padded 2 d.civil.month ++ '-' :: rest) = some (d.civil.month, '-' :: rest) :=
    leadingNumber?_padded (two d.civil.month (by omega)) (isDigit_dash rest)
  have dayRead : leadingNumber? 2 (padded 2 d.civil.day ++ []) = some (d.civil.day, []) :=
    leadingNumber?_padded (two d.civil.day day) nofun
  have shape : d.chars = yearText d.civil.year ++
      '-' :: (padded 2 d.civil.month ++ '-' :: (padded 2 d.civil.day ++ [])) := by
    simp [chars]
  rw [shape, read?, trimStart_yearText, leadingYear?_yearText]
  simp only [Option.bind_eq_bind, Option.bind_some, dash, afterDash?, trimStart_padded, monthRead,
    dayRead]
  exact ofCivil?_civil d

end Date

end Workplan
