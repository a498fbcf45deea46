/-
# Workplan.Proofs.Numerals — which texts are numbers

The readers of numbers are functions; here is what they accept, told without them. Digits write a number
in the usual way, and one of the signs that the number can have may stand before them. Two ranges bound
what is read: a task has a number of 32 bits, and a lag has one of 64 with a sign.

* `digits?_eq_some_iff`, `natural?_eq_some_iff`, `integer?_eq_some_iff` — the readers of numerals;
* `TaskId.read?_eq_some_iff`, `Lag.read?_eq_some_iff` — the readers of tasks and lags.
-/
import Workplan.Link

namespace Workplan

set_option autoImplicit false

namespace Text

/-- One or more digits write a number: the last one counts itself, and those before it ten times. -/
inductive Digits : List Char → Nat → Prop where
  | one {c : Char} (digit : c.isDigit = true) : Digits [c] (c.toNat - '0'.toNat)
  | snoc {front : List Char} {n : Nat} {c : Char} (before : Digits front n) (digit : c.isDigit = true) :
      Digits (front ++ [c]) (10 * n + (c.toNat - '0'.toNat))

/-- The digits of a number, after a plus sign or none. -/
inductive Natural : List Char → Nat → Prop where
  | plain {text : List Char} {n : Nat} (digits : Digits text n) : Natural text n
  | plus {text : List Char} {n : Nat} (digits : Digits text n) : Natural ('+' :: text) n

/-- The digits of a number, after a plus sign or none, or of its negative, after a minus sign. -/
inductive Integer : List Char → Int → Prop where
  | plain {text : List Char} {n : Nat} (digits : Digits text n) : Integer text n
  | plus {text : List Char} {n : Nat} (digits : Digits text n) : Integer ('+' :: text) n
  | minus {text : List Char} {n : Nat} (digits : Digits text n) : Integer ('-' :: text) (-n)

variable {text : List Char} {n : Nat}

theorem Digits.ne_nil (digits : Digits text n) : text ≠ [] := by
  cases digits <;> simp

theorem Digits.all_isDigit (digits : Digits text n) : text.all Char.isDigit = true := by
  induction digits with
  | one digit => simp [digit]
  | snoc _ digit ih => simp [ih, digit]

/-- No sign is a digit. -/
theorem Digits.not_cons {c : Char} (sign : c.isDigit = false) : ¬ Digits (c :: text) n := by
  intro digits
  have all := digits.all_isDigit
  rw [List.all_cons, sign] at all
  contradiction

theorem Digits.ofDigitChars (digits : Digits text n) : Nat.ofDigitChars 10 text 0 = n := by
  induction digits with
  | one => simp [Nat.ofDigitChars_cons]
  | snoc _ _ ih => rw [Nat.ofDigitChars_append, ih, Nat.ofDigitChars_cons, Nat.ofDigitChars_nil]

theorem Digits.append (digits : Digits text n) {more : List Char}
    (all : more.all Char.isDigit = true) : Digits (text ++ more) (Nat.ofDigitChars 10 more n) := by
  induction more generalizing text n with
  | nil => simpa using digits
  | cons c rest ih =>
    rw [List.all_cons, Bool.and_eq_true] at all
    rw [Nat.ofDigitChars_cons, List.append_cons]
    exact ih (.snoc digits all.1) all.2

theorem digits_ofDigitChars (visible : text ≠ []) (all : text.all Char.isDigit = true) :
    Digits text (Nat.ofDigitChars 10 text 0) := by
  obtain ⟨c, rest, rfl⟩ := List.exists_cons_of_ne_nil visible
  rw [List.all_cons, Bool.and_eq_true] at all
  rw [Nat.ofDigitChars_cons, Nat.mul_zero, Nat.zero_add]
  exact (Digits.one all.1).append all.2

theorem digits?_eq_some_iff : digits? text = some n ↔ Digits text n := by
  constructor
  · intro read
    rw [digits?, Option.ite_none_right_eq_some] at read
    obtain ⟨⟨visible, all⟩, value⟩ := read
    exact Option.some.inj value ▸ digits_ofDigitChars visible all
  · intro digits
    rw [digits?, if_pos ⟨digits.ne_nil, digits.all_isDigit⟩, digits.ofDigitChars]

theorem natural?_eq_some_iff : natural? text = some n ↔ Natural text n := by
  unfold natural?
  split
  · rw [digits?_eq_some_iff]
    refine ⟨.plus, fun natural => ?_⟩
    cases natural with
    | plain digits => exact absurd digits (Digits.not_cons (by decide))
    | plus digits => exact digits
  · rename_i unsigned
    rw [digits?_eq_some_iff]
    refine ⟨.plain, fun natural => ?_⟩
    cases natural with
    | plain digits => exact digits
    | plus => exact absurd rfl (unsigned _)

theorem integer?_eq_some_iff {i : Int} : integer? text = some i ↔ Integer text i := by
  unfold integer?
  split <;> simp only [Option.map_eq_some_iff, digits?_eq_some_iff]
  · constructor
    · rintro ⟨n, digits, rfl⟩
      exact .plus digits
    · intro integer
      cases integer with
      | plain digits => exact absurd digits (Digits.not_cons (by decide))
      | plus digits => exact ⟨_, digits, rfl⟩
  · constructor
    · rintro ⟨n, digits, rfl⟩
      exact .minus digits
    · intro integer
      cases integer with
      | plain digits => exact absurd digits (Digits.not_cons (by decide))
      | minus digits => exact ⟨_, digits, rfl⟩
  · rename_i noPlus noMinus
    constructor
    · rintro ⟨n, digits, rfl⟩
      exact .plain digits
    · intro integer
      cases integer with
      | plain digits => exact ⟨_, digits, rfl⟩
      | plus => exact absurd rfl (noPlus _)
      | minus => exact absurd rfl (noMinus _)

theorem integer_decimal (i : Int) : Integer (decimal i) i :=
  integer?_eq_some_iff.mp (integer?_decimal i)

end Text

/-- The text names the task: it is the number of the task, but for blanks around it. -/
def TaskId.IsNamed (task : TaskId) (text : List Char) : Prop := Text.Natural (Text.trim text) task.number

theorem TaskId.read?_eq_some_iff {text : List Char} {task : TaskId} :
    read? text = some task ↔ task.IsNamed text := by
  have fits : ∀ n, ofNat? n = some task ↔ n = task.number := by
    intro n
    simp only [ofNat?, Option.dite_none_right_eq_some, Option.some.injEq, TaskId.ext_iff]
    constructor
    · rintro ⟨-, same⟩
      exact same
    · exact fun same => ⟨same ▸ task.number_lt, same⟩
  simp only [read?, Option.bind_eq_some_iff, fits, exists_eq_right, IsNamed]
  exact Text.natural?_eq_some_iff

theorem TaskId.read?_eq_none {text : List Char} (unnamed : ∀ task : TaskId, ¬ task.IsNamed text) :
    read? text = none :=
  Option.eq_none_iff_forall_ne_some.mpr fun task read => unnamed task (read?_eq_some_iff.mp read)

theorem TaskId.isNamed_chars (task : TaskId) : task.IsNamed task.chars :=
  read?_eq_some_iff.mp (read?_chars task)

theorem Lag.read?_eq_some_iff {text : List Char} {lag : Lag} :
    read? text = some lag ↔ Text.Integer text lag.days := by
  have fits : ∀ i, ofInt? i = some lag ↔ i = lag.days := by
    intro i
    simp only [ofInt?, Option.dite_none_right_eq_some, Option.some.injEq, Lag.ext_iff]
    constructor
    · rintro ⟨-, same⟩
      exact same
    · exact fun same => ⟨same ▸ ⟨lag.le_days, lag.days_le⟩, same⟩
  simp only [read?, Option.bind_eq_some_iff, fits, exists_eq_right]
  exact Text.integer?_eq_some_iff

end Workplan
