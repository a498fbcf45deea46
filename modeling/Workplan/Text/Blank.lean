/-
# Workplan.Text.Blank — blank characters and trimming

The blanks are the characters with the Unicode property White_Space. `trim` drops them at both
ends of a text and leaves those inside alone.

* `isBlank_of_isWhitespace` — the ASCII blanks of the core library are among them.
* `isBlank_of_isAlphanum` — letters and digits are not.
* `trim_append` — blanks around a text do not count.
* `trim_trim` — a trimmed text has nothing left to trim.
-/
namespace Workplan.Text

set_option autoImplicit false

/-- The code points with the property White_Space, as closed ranges in increasing order. -/
def blankRanges : List (Nat × Nat) :=
  [(0x0009, 0x000D), (0x0020, 0x0020), (0x0085, 0x0085), (0x00A0, 0x00A0), (0x1680, 0x1680),
    (0x2000, 0x200A), (0x2028, 0x2029), (0x202F, 0x202F), (0x205F, 0x205F), (0x3000, 0x3000)]

def isBlank (c : Char) : Bool :=
  blankRanges.any fun range => range.1 ≤ c.toNat && c.toNat ≤ range.2

def trimStart (text : List Char) : List Char :=
  text.dropWhile isBlank

def trimEnd (text : List Char) : List Char :=
  (text.reverse.dropWhile isBlank).reverse

/-- The text without the blanks at its two ends. -/
def trim (text : List Char) : List Char :=
  trimEnd (trimStart text)

/-- Nothing but blanks. -/
def isBlankText (text : List Char) : Bool :=
  text.all isBlank

theorem isBlank_of_isWhitespace {c : Char} (white : c.isWhitespace = true) : isBlank c = true := by
  simp only [Char.isWhitespace, Bool.or_eq_true, decide_eq_true_eq] at white
  rcases white with ((rfl | rfl) | rfl) | rfl <;> decide

theorem isAlphanum_of_isDigit {c : Char} (digit : c.isDigit = true) : c.isAlphanum = true := by
  rw [Char.isAlphanum, digit, Bool.or_true]

theorem isBlank_of_isAlphanum {c : Char} (alphanum : c.isAlphanum = true) : isBlank c = false := by
  have number : c.toNat = c.val.toNat := rfl
  change (decide (65 ≤ c.val ∧ c.val ≤ 90) || decide (97 ≤ c.val) && decide (c.val ≤ 122) ||
    decide (48 ≤ c.val) && decide (c.val ≤ 57)) = true at alphanum
  simp only [Bool.or_eq_true, Bool.and_eq_true, decide_eq_true_eq, UInt32.le_iff_toNat_le,
    UInt32.reduceToNat] at alphanum
  -- The ranges of letters and digits and those of blanks do not meet.
  refine Bool.eq_false_iff.mpr fun blank => ?_
  simp only [isBlank, blankRanges, List.any_cons, List.any_nil, Bool.or_eq_true, Bool.and_eq_true,
    decide_eq_true_eq, number, Bool.false_eq_true, or_false] at blank
  omega

theorem isBlank_of_isDigit {c : Char} (digit : c.isDigit = true) : isBlank c = false :=
  isBlank_of_isAlphanum (isAlphanum_of_isDigit digit)

theorem head?_trimStart_not_blank {text : List Char} {c : Char}
    (first : (trimStart text).head? = some c) : isBlank c = false := by
  induction text with
  | nil => simp [trimStart] at first
  | cons d rest ih =>
    simp only [trimStart, List.dropWhile_cons] at first
    split at first
    · exact ih first
    · simp_all

theorem trimStart_eq_self {text : List Char} (first : ∀ c, text.head? = some c → isBlank c = false) :
    trimStart text = text := by
  cases text with
  | nil => rfl
  | cons d rest => simp [trimStart, first d rfl]

/-- A text without blanks has nothing to trim. -/
theorem trim_eq_self {text : List Char} (visible : ∀ c ∈ text, isBlank c = false) :
    trim text = text := by
  have atStart : trimStart text = text :=
    trimStart_eq_self fun c first => visible c (List.mem_of_mem_head? first)
  have atEnd : trimStart text.reverse = text.reverse := trimStart_eq_self fun c last =>
    visible c (List.mem_reverse.mp (List.mem_of_mem_head? last))
  rw [trim, atStart, trimEnd, ← trimStart, atEnd, List.reverse_reverse]

theorem trimStart_append {blanks : List Char} (blank : isBlankText blanks = true)
    (text : List Char) : trimStart (blanks ++ text) = trimStart text := by
  induction blanks with
  | nil => rfl
  | cons c rest ih =>
    simp only [isBlankText, List.all_cons, Bool.and_eq_true] at blank
    simp only [trimStart, List.cons_append, List.dropWhile_cons, blank.1, if_true]
    exact ih blank.2

theorem trimEnd_eq_reverse (text : List Char) : trimEnd text = (trimStart text.reverse).reverse :=
  rfl

theorem trimEnd_append {blanks : List Char} (blank : isBlankText blanks = true)
    (text : List Char) : trimEnd (text ++ blanks) = trimEnd text := by
  have reversed : isBlankText blanks.reverse = true := by simpa [isBlankText] using blank
  rw [trimEnd_eq_reverse, trimEnd_eq_reverse, List.reverse_append, trimStart_append reversed]

/-- Trimming the end keeps the front. -/
theorem trimEnd_prefix (text : List Char) : ∃ tail, text = trimEnd text ++ tail := by
  refine ⟨(text.reverse.takeWhile isBlank).reverse, ?_⟩
  have parts : text.reverse = text.reverse.takeWhile isBlank ++ text.reverse.dropWhile isBlank :=
    List.takeWhile_append_dropWhile.symm
  rw [trimEnd, ← List.reverse_append, ← parts, List.reverse_reverse]

theorem trimStart_trim (text : List Char) : trimStart (trim text) = trim text := by
  refine trimStart_eq_self fun c first => ?_
  obtain ⟨tail, whole⟩ := trimEnd_prefix (trimStart text)
  have kept : (trimStart text).head? = some c := by
    rw [whole]
    simp only [trim] at first
    simp [List.head?_append, first]
  exact head?_trimStart_not_blank kept

theorem trimEnd_trimEnd (text : List Char) : trimEnd (trimEnd text) = trimEnd text := by
  rw [trimEnd_eq_reverse, trimEnd_eq_reverse, List.reverse_reverse]
  exact congrArg List.reverse (trimStart_eq_self fun _ first => head?_trimStart_not_blank first)

theorem trim_trim (text : List Char) : trim (trim text) = trim text := by
  have inner := trimStart_trim text
  rw [trim, inner]
  exact trimEnd_trimEnd _

theorem trimStart_eq_nil {blanks : List Char} (blank : isBlankText blanks = true) :
    trimStart blanks = [] := by
  have alone := trimStart_append blank []
  rwa [List.append_nil] at alone

theorem trim_append {before after : List Char} (blankBefore : isBlankText before = true)
    (blankAfter : isBlankText after = true) (text : List Char) :
    trim (before ++ text ++ after) = trim text := by
  unfold trim
  rw [List.append_assoc, trimStart_append blankBefore]
  cases shape : trimStart text with
  | nil =>
    have whole : trimStart (text ++ after) = trimStart after := by
      unfold trimStart at shape ⊢
      rw [List.dropWhile_append, shape]
      rfl
    rw [whole, trimStart_eq_nil blankAfter]
  | cons c rest =>
    have kept : trimStart (text ++ after) = trimStart text ++ after := by
      unfold trimStart at shape ⊢
      rw [List.dropWhile_append]
      simp [shape]
    rw [kept, shape, trimEnd_append blankAfter]

end Workplan.Text
