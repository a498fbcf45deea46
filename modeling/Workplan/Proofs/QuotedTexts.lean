/-
# Workplan.Proofs.QuotedTexts — texts in quotes read back

A text is written between quotes that need no escape in it, or else with escapes. Whatever the text, the
reader gives it back and stops right after the closing quotes. In double quotes a character is `Spelled`
by itself or by an escape; between three quotes one more thing has to be told, where the text ends: up
to two quotes in a row belong to it, and so do up to two that come right before the closing ones
(`Held`).

* `Spelled.of_escaped` — each way to write a character stands for it;
* `quoted?_basic`, `quoted?_literal` — on one line, between quotes of either kind;
* `read_held` — between three quotes, whatever the reader makes of the characters there;
* `quoted?_quotedText` — every text.
-/
import Workplan.Text.Split
import Workplan.Toml.Words
import Workplan.Toml.Writer

namespace Workplan.Toml

set_option autoImplicit false

/-- What was read, with one more character in front. -/
def prepend (c : Char) (read : Option (List Char × List Char)) : Option (List Char × List Char) := do
  let (tail, rest) ← read
  return (c :: tail, rest)

theorem lineEnd?_eq_none {c : Char} (noEnd : c ≠ '\n') (noReturn : c ≠ '\r') (rest : List Char) :
    lineEnd? (c :: rest) = none := by
  unfold lineEnd?
  split <;> simp_all

/-! ## Characters in double quotes -/

/-- The characters stand for one character in double quotes, over several lines or not. -/
inductive Spelled (long : Bool) (c : Char) : List Char → Prop where
  | bare (plain : isPlain c = true) (noQuote : c ≠ '"') (noEscape : c ≠ '\\') : Spelled long c [c]
  | lineEnd (ofLong : long = true) (end_ : c = '\n') : Spelled long c ['\n']
  | escape {mark : Char} {code : List Char} (visible : mark ∉ [' ', '\t', '\n', '\r'])
      (means : ∀ more, escape? (mark :: (code ++ more)) = some (c, more)) :
      Spelled long c ('\\' :: mark :: code)

-- Only control characters are written by their number, so the cases can be run through.
theorem fourHex_length : ∀ n < 128, (fourHex n).length = 4 := by decide +kernel

theorem fourHex_value : ∀ n < 128, ((fourHex n).mapM Text.hexDigit?).map
    (fun values => values.foldl (fun total digit => 16 * total + digit) 0) = some n := by
  decide +kernel

theorem codePoint?_fourHex {n : Nat} (ascii : n < 128) (more : List Char) :
    codePoint? 4 (fourHex n ++ more) = some (Char.ofNat n, more) := by
  have length := fourHex_length n ascii
  obtain ⟨values, digits, value⟩ := Option.map_eq_some_iff.mp (fourHex_value n ascii)
  have front : (fourHex n ++ more).take 4 = fourHex n := List.take_left' length
  have back : (fourHex n ++ more).drop 4 = more := List.drop_left' length
  have valid : n.isValidChar := .inl (by omega)
  simp [codePoint?, length, front, back, digits, value, valid]

theorem Spelled.of_escaped (long : Bool) {c : Char} (noQuote : c ≠ '"') :
    Spelled long c (escaped long c) := by
  unfold escaped
  split
  case h_3 =>
    split
    · rename_i ofLong
      exact .lineEnd ofLong rfl
    · exact .escape (by decide) fun _ => rfl
  case h_7 noEscape =>
    split
    · rename_i control
      have ascii : c.toNat < 128 := by
        simp only [Bool.or_eq_true, decide_eq_true_eq] at control
        omega
      refine .escape (by decide) fun more => ?_
      change codePoint? 4 (fourHex c.toNat ++ more) = _
      rw [codePoint?_fourHex ascii, Char.ofNat_toNat]
    · rename_i visible
      refine .bare ?_ noQuote noEscape
      simp only [Bool.or_eq_true, decide_eq_true_eq, not_or, Nat.not_le] at visible
      simp only [isPlain, Bool.or_eq_true, Bool.and_eq_true, decide_eq_true_eq]
      exact .inr ⟨visible.1, visible.2⟩
  -- each of the others has a letter of its own
  all_goals exact .escape (by decide) fun _ => rfl

theorem Spelled.quote (long : Bool) : Spelled long '"' ['\\', '"'] :=
  .escape (by decide) fun _ => rfl

/-! ## Between single quotes -/

theorem basicText?_spelled {c : Char} {part : List Char} (spelled : Spelled false c part) (fuel : Nat)
    (more : List Char) : basicText? (fuel + 1) (part ++ more) = prepend c (basicText? fuel more) := by
  cases spelled with
  | bare plain noQuote noEscape => simp [basicText?, prepend, plain]
  | lineEnd ofLong => cases ofLong
  | escape visible means => simp [basicText?, prepend, means]

theorem basicText?_basicBody (text rest : List Char) :
    ∀ (fuel run : Nat), text.length < fuel →
      basicText? fuel (basicBody false run text ++ '"' :: rest) = some (text, rest) := by
  induction text with
  | nil =>
    intro fuel run enough
    obtain ⟨fuel, rfl⟩ := Nat.exists_eq_add_of_lt enough
    simp [basicBody, basicText?]
  | cons c text ih =>
    intro fuel run enough
    obtain ⟨fuel, rfl⟩ : ∃ less, fuel = less + 1 := ⟨fuel - 1, by simp at enough; omega⟩
    have tail := ih fuel 0 (by simpa using enough)
    by_cases quote : c = '"'
    · subst quote
      have front := basicText?_spelled (.quote false) fuel (basicBody false 0 text ++ '"' :: rest)
      simpa [basicBody, tail, prepend] using front
    · rw [basicBody, if_pos quote, List.append_assoc,
        basicText?_spelled (.of_escaped false quote), tail]
      rfl

theorem literalText?_append {text : List Char} (plain : ∀ c ∈ text, isPlain c = true ∧ c ≠ '\'')
    (rest : List Char) : literalText? (text ++ '\'' :: rest) = some (text, rest) := by
  have inside : (text ++ '\'' :: rest).takeWhile (fun c => isPlain c && c ≠ '\'') = text :=
    Text.takeWhile_append_cons (fun c member => by simpa using plain c member) (by decide) rest
  simp only [literalText?, inside, List.drop_left]

/-! ## Between three quotes -/

/-- The text stands between three quotes as written: a quote by itself if fewer than two bare quotes
come before it, another character by its part. The number counts the bare quotes just before. -/
inductive Held (quote : Char) (part : Char → List Char → Prop) :
    Nat → List Char → List Char → Prop where
  | nil {run : Nat} (few : run ≤ 2) : Held quote part run [] []
  | quote {run : Nat} {written text : List Char} (rest : Held quote part (run + 1) written text) :
      Held quote part run (quote :: written) (quote :: text)
  | other {run : Nat} {c mark : Char} {code written text : List Char} (few : run ≤ 2)
      (stands : part c (mark :: code)) (noQuote : mark ≠ quote) (rest : Held quote part 0 written text) :
      Held quote part run (mark :: code ++ written) (c :: text)

/-- What stands between the three quotes and a text: a line end if the text has any. -/
def lead (text : List Char) : List Char :=
  if text.contains '\n' then ['\n'] else []

section

variable {quote : Char} {part : Char → List Char → Prop} {run : Nat} {written text : List Char}

/-- What stands in front of a text between three quotes: all of it is quotes, or a few quotes come before
something else. -/
theorem Held.front (held : Held quote part run written text) :
    ∃ quotes more, run + quotes ≤ 2 ∧ written = List.replicate quotes quote ++ more ∧
      (more = [] ∧ text = List.replicate quotes quote ∨
        ∃ mark rest, more = mark :: rest ∧ mark ≠ quote) := by
  induction held with
  | nil few => exact ⟨0, [], few, rfl, .inl ⟨rfl, rfl⟩⟩
  | quote rest ih =>
    obtain ⟨quotes, more, few, rfl, back⟩ := ih
    refine ⟨quotes + 1, more, by omega, rfl, back.imp_left fun ⟨closed, all⟩ => ⟨closed, ?_⟩⟩
    rw [all, List.replicate_succ]
  | other few stands noQuote => exact ⟨0, _, few, rfl, .inr ⟨_, _, rfl, noQuote⟩⟩

theorem takeWhile_quotes (count : Nat) {more : List Char} (stop : more.head? ≠ some quote) :
    (List.replicate count quote ++ more).takeWhile (· = quote) = List.replicate count quote := by
  refine Text.takeWhile_append (fun c member => ?_) fun c first => ?_
  · exact decide_eq_true (List.eq_of_mem_replicate member)
  · exact decide_eq_false fun same => stop (same ▸ first)

theorem closeLong?_few {count : Nat} (few : count < 3) {more : List Char}
    (stop : more.head? ≠ some quote) : closeLong? quote (List.replicate count quote ++ more) = none := by
  simp [closeLong?, takeWhile_quotes count stop, few]

theorem closeLong?_append {count : Nat} (few : count ≤ 2) {rest : List Char}
    (stop : rest.head? ≠ some quote) :
    closeLong? quote (List.replicate count quote ++ quote :: quote :: quote :: rest) =
      some (List.replicate count quote, rest) := by
  have whole : List.replicate count quote ++ quote :: quote :: quote :: rest =
      List.replicate (count + 3) quote ++ rest := by
    rw [← List.replicate_append_replicate, List.append_assoc]
    rfl
  have taken : min (count + 3) 5 = count + 3 := by omega
  simp [whole, closeLong?, takeWhile_quotes (count + 3) stop, taken]

/-- A reader that looks for the closing quotes at each quote, and takes any other character by its part,
finds the text. -/
theorem read_held {read : Nat → List Char → Option (List Char × List Char)}
    (atQuote : ∀ fuel more, read (fuel + 1) (quote :: more) =
      (closeLong? quote (quote :: more)).or (prepend quote (read fuel more)))
    (atPart : ∀ fuel c marks more, part c marks →
      read (fuel + 1) (marks ++ more) = prepend c (read fuel more))
    {rest : List Char} (stop : rest.head? ≠ some quote) (held : Held quote part run written text) :
    ∀ {fuel : Nat}, text.length < fuel →
      read fuel (written ++ quote :: quote :: quote :: rest) = some (text, rest) := by
  induction held with
  | nil =>
    intro fuel enough
    obtain ⟨fuel, rfl⟩ := Nat.exists_eq_add_of_lt enough
    have closed := closeLong?_append (Nat.zero_le 2) stop
    simp only [List.replicate_zero, List.nil_append] at closed
    simp only [List.nil_append, atQuote, closed, Option.some_or]
  | @quote run written text held ih =>
    intro fuel enough
    obtain ⟨fuel, rfl⟩ : ∃ less, fuel = less + 1 := ⟨fuel - 1, by simp at enough; omega⟩
    rw [List.cons_append, atQuote]
    obtain ⟨quotes, more, few, shape, ⟨rfl, all⟩ | ⟨mark, inside, rfl, other⟩⟩ :=
      (Held.quote held).front
    · -- nothing but quotes is left of the text, so here it closes
      rw [← List.cons_append, shape, List.append_nil, closeLong?_append (by omega) stop, all]
      rfl
    · have opened : closeLong? quote
          (quote :: (written ++ quote :: quote :: quote :: rest)) = none := by
        rw [← List.cons_append, shape, List.append_assoc]
        exact closeLong?_few (by omega) (by simpa using other)
      rw [opened, ih (by simpa using enough)]
      rfl
  | @other run c mark code written text few stands noQuote held ih =>
    intro fuel enough
    obtain ⟨fuel, rfl⟩ : ∃ less, fuel = less + 1 := ⟨fuel - 1, by simp at enough; omega⟩
    rw [List.append_assoc, atPart fuel c _ _ stands, ih (by simpa using enough)]
    rfl

/-- A text with line ends begins on a line of its own; no other text begins with a line end. -/
theorem Held.dropFirstLineEnd (held : Held quote part run written text)
    (visible : quote ≠ '\n' ∧ quote ≠ '\r')
    (starts : ∀ c mark code, part c (mark :: code) → mark ≠ '\r' ∧ (mark = '\n' → c = '\n'))
    (rest : List Char) :
    dropFirstLineEnd (lead text ++ (written ++ quote :: rest)) = written ++ quote :: rest := by
  have kept (mark : Char) (more : List Char) (noEnd : mark ≠ '\n') (noReturn : mark ≠ '\r') :
      Toml.dropFirstLineEnd (mark :: more) = mark :: more := by
    simp [Toml.dropFirstLineEnd, lineEnd?_eq_none noEnd noReturn]
  unfold lead
  split
  · rfl
  · rename_i noEnd
    cases held with
    | nil => exact kept quote rest visible.1 visible.2
    | quote => exact kept quote _ visible.1 visible.2
    | other few stands =>
      obtain ⟨noReturn, lineEnd⟩ := starts _ _ _ stands
      refine kept _ _ (fun same => noEnd ?_) noReturn
      simp [lineEnd same]

end

/-! ### With escapes -/

theorem Spelled.starts {long : Bool} {c : Char} {marks : List Char} (spelled : Spelled long c marks) :
    ∃ mark code, marks = mark :: code ∧ mark ≠ '"' ∧ mark ≠ '\r' ∧ (mark = '\n' → c = '\n') := by
  cases spelled with
  | bare plain noQuote noEscape =>
    refine ⟨c, [], rfl, noQuote, ?_, id⟩
    rintro rfl
    exact absurd plain (by decide)
  | lineEnd ofLong end_ => exact ⟨'\n', [], rfl, by decide, by decide, fun _ => end_⟩
  | escape visible means => exact ⟨'\\', _, rfl, by decide, by decide, nofun⟩

theorem longBasicText?_quote (fuel : Nat) (more : List Char) :
    longBasicText? (fuel + 1) ('"' :: more) =
      (closeLong? '"' ('"' :: more)).or (prepend '"' (longBasicText? fuel more)) := by
  rw [longBasicText?]
  cases closeLong? '"' ('"' :: more) <;> rfl

theorem joinLines?_visible {mark : Char} (visible : mark ∉ [' ', '\t', '\n', '\r'])
    (more : List Char) : joinLines? (mark :: more) = none := by
  simp only [List.mem_cons, List.not_mem_nil, or_false, not_or] at visible
  obtain ⟨noBlank, noTab, noEnd, noReturn⟩ := visible
  simp [joinLines?, skipBlanks, isBlank, noBlank, noTab, lineEnd?_eq_none noEnd noReturn]

theorem longBasicText?_spelled {c : Char} {part : List Char} (spelled : Spelled true c part)
    (fuel : Nat) (more : List Char) :
    longBasicText? (fuel + 1) (part ++ more) = prepend c (longBasicText? fuel more) := by
  cases spelled with
  | bare plain noQuote noEscape => simp [longBasicText?, prepend, plain]
  | lineEnd ofLong end_ =>
    subst end_
    rfl
  | escape visible means =>
    simp [longBasicText?, prepend, joinLines?_visible visible, means]

theorem held_basicBody (text : List Char) :
    ∀ run ≤ 2, Held '"' (Spelled true) run (basicBody true run text) text := by
  induction text with
  | nil => exact fun run few => .nil few
  | cons c text ih =>
    intro run few
    by_cases quote : c = '"'
    · subst quote
      by_cases less : run < 2
      · simpa [basicBody, less] using Held.quote (ih (run + 1) less)
      · simpa [basicBody, less] using Held.other few (.quote true) (by decide) (ih 0 (by decide))
    · have spelled := Spelled.of_escaped true quote
      obtain ⟨mark, code, shape, noQuote, -⟩ := spelled.starts
      rw [basicBody, if_pos quote, shape]
      exact .other few (shape ▸ spelled) noQuote (ih 0 (by decide))

/-! ### As it stands -/

/-- The character stands for itself between three single quotes. -/
def Bare (c : Char) (marks : List Char) : Prop :=
  marks = [c] ∧ c ≠ '\'' ∧ (isPlain c = true ∨ c = '\n')

theorem isPlain_of_not_control {c : Char} (visible : isControl c = false) :
    isPlain c = true ∨ c = '\n' := by
  simp only [isControl, isPlain, Bool.and_eq_false_iff, Bool.or_eq_false_iff, Bool.or_eq_true,
    Bool.and_eq_true, decide_eq_false_iff_not, decide_eq_true_eq, Decidable.not_not] at visible ⊢
  rcases visible with (⟨low, high⟩ | tab) | end_
  · exact .inl (.inr ⟨by omega, by simpa using high⟩)
  · exact .inl (.inl tab)
  · exact .inr end_

theorem le_longestRun (c : Char) (text : List Char) : ∀ run, run ≤ longestRun c run text := by
  induction text with
  | nil => exact fun run => Nat.le_refl run
  | cons d text ih =>
    intro run
    rw [longestRun]
    split
    · exact Nat.le_of_succ_le (ih (run + 1))
    · exact Nat.le_max_left ..

theorem not_mem_of_longestRun {c : Char} {text : List Char} :
    ∀ run, longestRun c run text = 0 → c ∉ text := by
  induction text with
  | nil => simp
  | cons d text ih =>
    intro run none_
    rw [longestRun] at none_
    split at none_
    · have least := le_longestRun c text (run + 1)
      omega
    · rename_i other
      have later := ih 0 (by omega)
      simp [later, Ne.symm other]

theorem held_of_longestRun {text : List Char} (visible : ∀ c ∈ text, isControl c = false) :
    ∀ run, longestRun '\'' run text ≤ 2 → Held '\'' Bare run text text := by
  induction text with
  | nil => exact fun run few => .nil few
  | cons c text ih =>
    intro run few
    have later := ih fun d member => visible d (.tail c member)
    rw [longestRun] at few
    split at few
    · rename_i quote
      subst quote
      exact .quote (later (run + 1) few)
    · rename_i noQuote
      have plain := isPlain_of_not_control (visible c (.head text))
      have runs := Nat.max_le.mp few
      exact .other runs.1 ⟨rfl, noQuote, plain⟩ noQuote (later 0 runs.2)

theorem longLiteralText?_quote (fuel : Nat) (more : List Char) :
    longLiteralText? (fuel + 1) ('\'' :: more) =
      (closeLong? '\'' ('\'' :: more)).or (prepend '\'' (longLiteralText? fuel more)) := by
  rw [longLiteralText?]
  cases closeLong? '\'' ('\'' :: more) <;> rfl

theorem longLiteralText?_bare {c : Char} {marks : List Char} (bare : Bare c marks) (fuel : Nat)
    (more : List Char) :
    longLiteralText? (fuel + 1) (marks ++ more) = prepend c (longLiteralText? fuel more) := by
  obtain ⟨rfl, noQuote, plain | rfl⟩ := bare
  · simp [longLiteralText?, prepend, plain]
  · rfl

/-! ## Every text -/

/-- A text is written as it stands only if the reader takes each of its characters so. -/
theorem ofText_literal (text : List Char) :
    (Quoting.ofText text = .literal → (∀ c ∈ text, isControl c = false) ∧ '\n' ∉ text ∧ '\'' ∉ text) ∧
      (Quoting.ofText text = .longLiteral →
        (∀ c ∈ text, isControl c = false) ∧ longestRun '\'' 0 text ≤ 2) := by
  unfold Quoting.ofText
  simp only
  split
  · exact ⟨nofun, nofun⟩
  split
  · rename_i fitting
    simp only [Bool.and_eq_true, Bool.not_eq_true', List.any_eq_false, Bool.not_eq_true,
      decide_eq_true_eq, List.contains_eq_mem, decide_eq_false_iff_not] at fitting
    obtain ⟨⟨visible, none_⟩, noEnd⟩ := fitting
    exact ⟨fun _ => ⟨visible, noEnd, not_mem_of_longestRun 0 none_⟩, nofun⟩
  split
  · exact ⟨nofun, nofun⟩
  split
  · rename_i fitting
    simp only [Bool.and_eq_true, Bool.not_eq_true', List.any_eq_false, Bool.not_eq_true,
      decide_eq_true_eq] at fitting
    exact ⟨nofun, fun _ => fitting⟩
  split <;> exact ⟨nofun, nofun⟩

/-- A text between two quotes does not look like the front of one between three. -/
theorem not_three_quotes {quote : Char} {written rest : List Char} (noQuote : written.head? ≠ some quote)
    (stop : rest.head? ≠ some quote) (more : List Char) :
    written ++ quote :: rest ≠ quote :: quote :: more := by
  intro same
  cases written with
  | nil => exact stop (by simp [List.cons.inj same])
  | cons c written => exact noQuote (by simp [(List.cons.inj same).1])

theorem head?_basicBody (run : Nat) (text : List Char) :
    (basicBody false run text).head? ≠ some '"' := by
  cases text with
  | nil => simp [basicBody]
  | cons c text =>
    rw [basicBody]
    split
    · rename_i noQuote
      obtain ⟨mark, code, shape, visible, -⟩ := (Spelled.of_escaped false noQuote).starts
      simpa [shape] using visible
    · simp

theorem length_le_basicBody (long : Bool) (text : List Char) :
    ∀ run, text.length ≤ (basicBody long run text).length := by
  induction text with
  | nil => simp
  | cons c text ih =>
    intro run
    rw [basicBody]
    split
    · rename_i noQuote
      obtain ⟨mark, code, shape, -⟩ := (Spelled.of_escaped long noQuote).starts
      have later := ih 0
      simp only [shape, List.length_cons, List.length_append]
      omega
    · split
      · simpa using ih (run + 1)
      · simpa using Nat.le_succ_of_le (ih 0)

variable {rest : List Char}

theorem quoted?_basic (text : List Char) (stop : rest.head? ≠ some '"') :
    quoted? ('"' :: (basicBody false 0 text ++ '"' :: rest)) = some (text, rest) := by
  have two := not_three_quotes (head?_basicBody 0 text) stop
  have length := length_le_basicBody false text 0
  rw [quoted?.eq_3 _ two]
  exact basicText?_basicBody text rest _ 0 (by simp; omega)

theorem quoted?_literal {text : List Char} (plain : ∀ c ∈ text, isPlain c = true ∧ c ≠ '\'')
    (stop : rest.head? ≠ some '\'') :
    quoted? ('\'' :: (text ++ '\'' :: rest)) = some (text, rest) := by
  have noQuote : text.head? ≠ some '\'' := fun first => (plain _ (List.mem_of_head? first)).2 rfl
  have two := not_three_quotes noQuote stop
  rw [quoted?.eq_4 _ two]
  exact literalText?_append plain rest

theorem quoted?_longBasic (text : List Char) (stop : rest.head? ≠ some '"') :
    quoted? ('"' :: '"' :: '"' ::
      (lead text ++ (basicBody true 0 text ++ '"' :: '"' :: '"' :: rest))) = some (text, rest) := by
  have length := length_le_basicBody true text 0
  have held := held_basicBody text 0 (by decide)
  have starts (c mark : Char) (code : List Char) (spelled : Spelled true c (mark :: code)) :
      mark ≠ '\r' ∧ (mark = '\n' → c = '\n') := by
    obtain ⟨mark, code, shape, -, noReturn, lineEnd⟩ := spelled.starts
    exact (List.cons.inj shape).1 ▸ ⟨noReturn, lineEnd⟩
  rw [quoted?, held.dropFirstLineEnd (by decide) starts]
  exact read_held longBasicText?_quote
    (fun fuel c marks more spelled => longBasicText?_spelled spelled fuel more) stop held
    (by simp; omega)

theorem quoted?_longLiteral {text : List Char} (visible : ∀ c ∈ text, isControl c = false)
    (few : longestRun '\'' 0 text ≤ 2) (stop : rest.head? ≠ some '\'') :
    quoted? ('\'' :: '\'' :: '\'' ::
      (lead text ++ (text ++ '\'' :: '\'' :: '\'' :: rest))) = some (text, rest) := by
  have held := held_of_longestRun visible 0 few
  have starts (c mark : Char) (code : List Char) (bare : Bare c (mark :: code)) :
      mark ≠ '\r' ∧ (mark = '\n' → c = '\n') := by
    obtain ⟨same, -, plain⟩ := bare
    obtain ⟨rfl, -⟩ := List.cons.inj same
    refine ⟨?_, id⟩
    rintro rfl
    revert plain
    decide
  rw [quoted?, held.dropFirstLineEnd (by decide) starts]
  exact read_held longLiteralText?_quote
    (fun fuel c marks more bare => longLiteralText?_bare bare fuel more) stop held
    (by simp; omega)

/-- Whatever a text holds, it reads back, and the reader stops right after its closing quotes. -/
theorem quoted?_quotedText (value : String)
    (stop : rest.head? ≠ some '"' ∧ rest.head? ≠ some '\'') :
    quoted? ((quotedText value).toList ++ rest) = some (value.toList, rest) := by
  have asItStands := ofText_literal value.toList
  have leadText : (if value.toList.contains '\n' then "\n" else "").toList = lead value.toList := by
    unfold lead
    split <;> rfl
  cases chosen : Quoting.ofText value.toList with
  | basic => simpa [quotedText, chosen] using quoted?_basic value.toList stop.1
  | literal =>
    obtain ⟨visible, noEnd, noQuote⟩ := asItStands.1 chosen
    have plain (c : Char) (member : c ∈ value.toList) : isPlain c = true ∧ c ≠ '\'' :=
      ⟨(isPlain_of_not_control (visible c member)).resolve_right fun same => noEnd (same ▸ member),
        fun same => noQuote (same ▸ member)⟩
    simpa [quotedText, chosen] using quoted?_literal plain stop.2
  | longBasic =>
    have read := quoted?_longBasic value.toList stop.1
    rw [← leadText] at read
    simpa [quotedText, chosen] using read
  | longLiteral =>
    obtain ⟨visible, few⟩ := asItStands.2 chosen
    have read := quoted?_longLiteral visible few stop.2
    rw [← leadText] at read
    simpa [quotedText, chosen] using read

end Workplan.Toml
