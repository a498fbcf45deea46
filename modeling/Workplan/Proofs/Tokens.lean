/-
# Workplan.Proofs.Tokens — reading back what was written of a predecessor

A token is written with letters, digits and the marks `-`, `=` and `>`, and what is left out says the
usual. So what is written of a predecessor has one of the forms of a token (`TokenGrammar`), and no blank is
trimmed from it.

* `parse_chars` — every token reads back as what it was written for;
* `parse_spec` — what the reader accepts, what it answers otherwise, and that what it accepts can be written
  and read again;
* `parseAll_intercalate` — tokens that are joined by a separator that none of them could continue with are
  read back too.
-/
import Workplan.Proofs.TokenGrammar

namespace Workplan

set_option autoImplicit false

theorem TaskId.ne_dash_of_mem_chars {task : TaskId} {c : Char} (member : c ∈ task.chars) :
    c ≠ '-' := by
  rintro rfl
  exact absurd (isDigit_of_mem_chars member) (by decide)

namespace Relation

theorem isAlphanum_of_mem_mnemonic {relation : Relation} {c : Char}
    (member : c ∈ relation.mnemonic.toList) : c.isAlphanum = true := by
  have all : relation.mnemonic.toList.all Char.isAlphanum = true := by
    cases relation <;> decide
  exact List.all_eq_true.mp all c member

end Relation

namespace Predecessor

/-- A token may hold the character. -/
def MayHold (c : Char) : Prop :=
  c.isAlphanum = true ∨ c = '-' ∨ c = '=' ∨ c = '>'

theorem isBlank_of_mayHold {c : Char} (may : MayHold c) : Text.isBlank c = false := by
  rcases may with alphanum | rfl | rfl | rfl
  · exact Text.isBlank_of_isAlphanum alphanum
  · decide
  · decide
  · decide

/-! ## The three forms -/

/-- The rest of a token that tells a hardness and a lag. -/
def termChars (hardness : Hardness) (lag : Lag) : List Char :=
  mark hardness :: 'P' :: Text.decimal lag.days ++ ['D']

/-- What follows the dependee of a token: nothing, the relation, or the relation and the terms. -/
inductive Rest (p : Predecessor) : List Char → Prop where
  | usual (relation : p.relation = .finishStart) (hardness : p.hardness = .strong)
      (lag : p.lag = .zero) : Rest p []
  | plain (hardness : p.hardness = .strong) (lag : p.lag = .zero) :
      Rest p ('-' :: p.relation.mnemonic.toList)
  | full : Rest p ('-' :: p.relation.mnemonic.toList ++ termChars p.hardness p.lag)

theorem exists_rest (p : Predecessor) : ∃ rest, p.chars = p.dependee.chars ++ rest ∧ p.Rest rest := by
  simp only [chars]
  split
  · rename_i usual
    exact ⟨[], (List.append_nil _).symm, .usual usual.2 usual.1.2 usual.1.1⟩
  · split
    · rename_i plain
      exact ⟨_, rfl, .plain plain.2 plain.1⟩
    · exact ⟨_, by simp [termChars], .full⟩

theorem Rest.mayHold {p : Predecessor} {rest : List Char} (form : p.Rest rest) {c : Char}
    (member : c ∈ rest) : MayHold c := by
  cases form with
  | usual => exact absurd member List.not_mem_nil
  | plain =>
    rcases List.mem_cons.mp member with rfl | letter
    · exact .inr (.inl rfl)
    · exact .inl (Relation.isAlphanum_of_mem_mnemonic letter)
  | full =>
    simp only [termChars, List.cons_append, List.mem_cons, List.mem_append] at member
    rcases member with rfl | letter | rfl | rfl | digit | rfl | none
    · exact .inr (.inl rfl)
    · exact .inl (Relation.isAlphanum_of_mem_mnemonic letter)
    · cases p.hardness with
      | strong => exact .inr (.inr (.inl rfl))
      | rubber => exact .inr (.inr (.inr rfl))
    · exact .inl (by decide)
    · rcases Text.mem_decimal digit with digit | rfl
      · exact .inl (Text.isAlphanum_of_isDigit digit)
      · exact .inr (.inl rfl)
    · exact .inl (by decide)
    · exact absurd none List.not_mem_nil

theorem mayHold_of_mem_chars {p : Predecessor} {c : Char} (member : c ∈ p.chars) : MayHold c := by
  obtain ⟨rest, whole, form⟩ := p.exists_rest
  rw [whole] at member
  rcases List.mem_append.mp member with digit | inRest
  · exact .inl (Text.isAlphanum_of_isDigit (TaskId.isDigit_of_mem_chars digit))
  · exact form.mayHold inRest

theorem chars_ne_nil (p : Predecessor) : p.chars ≠ [] := by
  obtain ⟨rest, whole, -⟩ := p.exists_rest
  rw [whole]
  exact List.append_ne_nil_of_left_ne_nil (Text.toDigits_ne_nil _) _

theorem not_isBlankText_chars (p : Predecessor) : Text.isBlankText p.chars = false := by
  obtain ⟨c, rest, shape⟩ := List.exists_cons_of_ne_nil p.chars_ne_nil
  have visible : Text.isBlank c = false :=
    isBlank_of_mayHold (mayHold_of_mem_chars (p := p) (shape ▸ List.mem_cons_self))
  simp [Text.isBlankText, shape, visible]

/-! ## Reading back -/

/-- What is written of a predecessor has one of the three forms. -/
theorem written_chars (p : Predecessor) : Written p.chars p := by
  obtain ⟨rest, whole, form⟩ := p.exists_rest
  obtain ⟨dependee, relation, hardness, lag⟩ := p
  have free : '-' ∉ dependee.chars := fun member => TaskId.ne_dash_of_mem_chars member rfl
  rw [whole]
  cases form with
  | usual finishStart strong zero =>
    obtain rfl : relation = .finishStart := finishStart
    obtain rfl : hardness = .strong := strong
    obtain rfl : lag = .zero := zero
    rw [List.append_nil]
    exact .number (.whole free) dependee.isNamed_chars
  | plain strong zero =>
    obtain rfl : hardness = .strong := strong
    obtain rfl : lag = .zero := zero
    exact .related (.first free _) dependee.isNamed_chars
  | full =>
    have cut := Text.Cut.first free
      (relation.mnemonic.toList ++ mark hardness :: ('P' :: Text.decimal lag.days ++ ['D']))
    exact .full cut dependee.isNamed_chars (Text.integer_decimal lag.days)

/-- Every token reads back as what it was written for. -/
theorem parse_chars (p : Predecessor) : parse p.chars = .ok p := by
  have visible : ∀ c ∈ p.chars, Text.isBlank c = false := fun c member =>
    isBlank_of_mayHold (mayHold_of_mem_chars member)
  rw [parse_eq_ok_iff, Text.trim_eq_self visible]
  exact p.written_chars

/-- The reader accepts the three forms and nothing else. It answers any other text with the first thing
that is wrong, and there always is one. What it accepts is read again in the same way from what is written
of it, whoever the dependant is. -/
theorem parse_spec (text : List Char) :
    (∀ p, parse text = .ok p ↔ Written (Text.trim text) p) ∧
    (∀ reason, parse text = .error reason ↔ Refused (Text.trim text) reason) ∧
    ((∃ p, Written (Text.trim text) p) ∨ ∃ reason, Refused (Text.trim text) reason) ∧
    ∀ p dependant, parse text = .ok p → parse (ofLink (p.link dependant)).chars = parse text := by
  refine ⟨fun p => parse_eq_ok_iff, fun reason => parse_eq_error_iff, written_or_refused _, ?_⟩
  intro p dependant read
  have same : ofLink (p.link dependant) = p := rfl
  rw [same, parse_chars, read]

/-- A text with blanks, a sign and zeros that are not written; and one where a character of three bytes
follows the dash. -/
theorem parse_spec_of_blanks :
    let text := " +07 -SF>P-2D ".toList
    let p : Predecessor := ⟨⟨7, by decide⟩, .startFinish, .rubber, ⟨-2, by decide, by decide⟩⟩
    parse text = .ok p ∧ Written (Text.trim text) p ∧ p.chars = "7-SF>P-2D".toList ∧
      parse p.chars = parse text ∧
      Refused "4-€".toList (.missingRelation "4-€") := by
  intro text p
  obtain ⟨accepts, -, -, again⟩ := parse_spec text
  obtain ⟨-, refuses, -, -⟩ := parse_spec "4-€".toList
  have read : parse text = .ok p := by rfl
  refine ⟨read, (accepts p).mp read, by decide, again p p.dependee read, ?_⟩
  exact (refuses _).mp (by rfl)

theorem mapM_parse (tokens : List Predecessor) : (tokens.map chars).mapM parse = .ok tokens := by
  induction tokens with
  | nil => rfl
  | cons token rest ih =>
    rw [List.map_cons, List.mapM_cons, parse_chars, ih]
    rfl

/-- So do tokens that are joined by a separator which begins with a character that no token holds. -/
theorem parseAll_intercalate (tokens : List Predecessor) {c : Char} (apart : ¬ MayHold c)
    (rest : List Char) :
    parseAll ((c :: rest).intercalate (tokens.map chars)) (c :: rest) = .ok tokens := by
  cases tokens with
  | nil =>
    simp [parseAll, Text.pieces, Text.piecesBetween, Text.cutAt?, Text.isBlankText, pure, Except.pure]
  | cons first more =>
    have free : ∀ part ∈ (first :: more).map chars, ∀ d ∈ part, d ≠ c := by
      rintro part member d inside rfl
      obtain ⟨token, -, rfl⟩ := List.mem_map.mp member
      exact apart (mayHold_of_mem_chars inside)
    have kept : ∀ part ∈ (first :: more).map chars, (!Text.isBlankText part) = true := by
      intro part member
      obtain ⟨token, -, rfl⟩ := List.mem_map.mp member
      rw [not_isBlankText_chars]
      rfl
    rw [parseAll, Text.pieces_intercalate (by simp) free, List.filter_eq_self.mpr kept, mapM_parse]

/-- A negative lag comes after a second dash. -/
example : parse "2-FF>P-1D".toList =
    .ok ⟨⟨2, by decide⟩, .finishFinish, .rubber, ⟨-1, by decide, by decide⟩⟩ := by
  rfl

end Predecessor

end Workplan
