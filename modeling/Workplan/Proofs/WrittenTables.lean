/-
# Workplan.Proofs.WrittenTables — written tables read back

The writer knows tables whose entries are texts, truth values and lists of texts. What it writes is a
text of lines: a header, then an entry on each line or, for a list of two or more texts, on several, and
an empty line between two tables. The reader takes such a text apart again whatever the texts in it are.

* `value?_written` — a value is read up to the line end after it;
* `Lines`, `statements?_eq_some` — a text made of lines has the statements of the lines;
* `foldlM_statements` — statements of a table put the entries where they were;
* `read?_written` — tables with distinct names are read back.
-/
import Workplan.Proofs.QuotedTexts
import Workplan.Toml.Reader

namespace Workplan.Toml

set_option autoImplicit false

/-! ## What is written -/

/-- A value that can be written. -/
inductive Value where
  | text (value : String)
  | flag (value : Bool)
  | texts (items : List String)

namespace Value

def written : Value → String
  | text value => quotedText value
  | flag value => if value then "true" else "false"
  | texts items => textList items

def document : Value → Document
  | text value => .text value
  | flag value => .bool value
  | texts items => .list (items.map .text)

end Value

/-- A name that needs no quotes. -/
def IsBare (name : String) : Prop :=
  name.toList ≠ [] ∧ name.toList.all isNameChar = true

instance (name : String) : Decidable (IsBare name) := inferInstanceAs (Decidable (_ ∧ _))

/-- A table that can be written. -/
structure Section where
  name : String
  entries : List (String × Value)
  bare : IsBare name := by decide
  bareEntries : ∀ entry ∈ entries, IsBare entry.1 := by
    simp only [List.forall_mem_cons, List.not_mem_nil, false_imp_iff, implies_true]
    decide
  distinct : (entries.map Prod.fst).Nodup := by simp

namespace Section

def written (part : Section) : String :=
  writtenTable part.name (part.entries.map fun entry => (entry.1, entry.2.written))

def document (part : Section) : Document :=
  .table (part.entries.map fun entry => (entry.1, entry.2.document))

def statements (part : Section) : List Statement :=
  .openTable [] part.name ::
    part.entries.map fun entry => .assign [] entry.1 entry.2.document

end Section

/-! ## Blanks and line ends -/

/-- The character is no blank, and begins neither a comment nor a line end. -/
def IsVisible (c : Char) : Prop := c ∉ [' ', '\t', '#', '\n', '\r']

instance (c : Char) : Decidable (IsVisible c) := inferInstanceAs (Decidable (_ ∉ _))

variable {c : Char} {rest : List Char}

theorem IsVisible.isBlank (visible : IsVisible c) : isBlank c = false := by
  simp only [IsVisible, List.mem_cons, not_or] at visible
  simp [Toml.isBlank, visible.1, visible.2.1]

theorem no_blanks : ∀ b ∈ ([] : List Char), isBlank b = true := nofun

theorem skipBlanks_append {blanks : List Char} (blank : ∀ b ∈ blanks, isBlank b = true)
    (visible : IsVisible c) (rest : List Char) : skipBlanks (blanks ++ c :: rest) = c :: rest := by
  rw [skipBlanks, List.dropWhile_append_of_pos blank,
    List.dropWhile_cons_of_neg (by simp [visible.isBlank])]

theorem skipLines_append {blanks : List Char} (blank : ∀ b ∈ blanks, isBlank b = true)
    (visible : IsVisible c) (rest : List Char) : skipLines (blanks ++ c :: rest) = c :: rest := by
  have front := skipBlanks_append blank visible rest
  simp only [IsVisible, List.mem_cons, List.not_mem_nil, or_false, not_or] at visible
  obtain ⟨-, -, noComment, noEnd, noReturn⟩ := visible
  obtain ⟨fuel, length⟩ : ∃ fuel, (blanks ++ c :: rest).length = fuel + 1 :=
    ⟨blanks.length + rest.length, by simp; omega⟩
  simp [skipLines, length, skipLinesWithin, front, noComment, noEnd, noReturn]

theorem skipLines_visible (visible : IsVisible c) (rest : List Char) :
    skipLines (c :: rest) = c :: rest :=
  skipLines_append no_blanks visible rest

theorem emptyLine?_lineEnd (rest : List Char) : emptyLine? ('\n' :: rest) = some rest := rfl

theorem skipLines_lineEnd (rest : List Char) : skipLines ('\n' :: rest) = skipLines rest := rfl

/-! ## Values -/

theorem quotedText_front (value : String) : ∃ mark more,
    (quotedText value).toList = mark :: more ∧ IsVisible mark ∧ (mark = '"' ∨ mark = '\'') := by
  cases chosen : Quoting.ofText value.toList <;> simp [quotedText, chosen, IsVisible]

theorem value?_quotedText (value : String) (stop : rest.head? ≠ some '"' ∧ rest.head? ≠ some '\'')
    (depth fuel : Nat) :
    value? depth (fuel + 1) ((quotedText value).toList ++ rest) = some (.text value, rest) := by
  have read := quoted?_quotedText value stop
  obtain ⟨mark, more, shape, -, rfl | rfl⟩ := quotedText_front value <;>
    · rw [shape, List.cons_append] at read ⊢
      simp [value?, read]

theorem items?_close (depth fuel : Nat) {text : List Char} (closed : skipLines text = ']' :: rest) :
    items? depth (fuel + 1) text = some ([], rest) := by
  simp [items?, closed]

theorem items?_last {item : String} (depth fuel : Nat) {text after : List Char}
    (front : skipLines text = (quotedText item).toList ++ after)
    (stop : after.head? ≠ some '"' ∧ after.head? ≠ some '\'')
    (closed : skipLines after = ']' :: rest) :
    items? depth (fuel + 2) text = some ([.text item], rest) := by
  have read := value?_quotedText item stop depth fuel
  obtain ⟨mark, more, shape, -, rfl | rfl⟩ := quotedText_front item <;>
    · rw [shape, List.cons_append] at front read
      simp [items?, front, read, closed]

theorem items?_next {item : String} {depth fuel : Nat} {text after : List Char}
    {items : List Document} {last : List Char}
    (front : skipLines text = (quotedText item).toList ++ after)
    (stop : after.head? ≠ some '"' ∧ after.head? ≠ some '\'')
    (comma : skipLines after = ',' :: rest)
    (others : items? depth (fuel + 1) rest = some (items, last)) :
    items? depth (fuel + 2) text = some (.text item :: items, last) := by
  have read := value?_quotedText item stop depth fuel
  obtain ⟨mark, more, shape, -, rfl | rfl⟩ := quotedText_front item <;>
    · rw [shape, List.cons_append] at front read
      rw [items?]
      simp [front, read, comma, others]

/-- A list item on a line of its own. -/
def itemLine (item : String) : List Char :=
  "    ".toList ++ ((quotedText item).toList ++ ",\n".toList)

theorem items?_lines (items : List String) (rest : List Char) (depth : Nat) :
    ∀ fuel, items.length < fuel →
      items? depth fuel ('\n' :: (items.flatMap itemLine ++ ']' :: rest)) =
        some (items.map .text, rest) := by
  induction items with
  | nil =>
    intro fuel enough
    obtain ⟨fuel, rfl⟩ := Nat.exists_eq_add_of_lt enough
    have visible : IsVisible ']' := by decide
    exact items?_close depth _ (skipLines_visible visible rest)
  | cons item items ih =>
    intro fuel enough
    obtain ⟨fuel, rfl⟩ : ∃ less, fuel = less + 2 := ⟨fuel - 2, by simp at enough; omega⟩
    have others := ih (fuel + 1) (by simpa using enough)
    have front : skipLines ('\n' :: (itemLine item ++ (items.flatMap itemLine ++ ']' :: rest))) =
        (quotedText item).toList ++ ',' :: '\n' :: (items.flatMap itemLine ++ ']' :: rest) := by
      obtain ⟨mark, more, shape, visible, -⟩ := quotedText_front item
      have blank : ∀ b ∈ "    ".toList, isBlank b = true := by simp [isBlank]
      simpa [skipLines_lineEnd, itemLine, shape] using skipLines_append blank visible _
    have comma : IsVisible ',' := by decide
    simpa using items?_next front ⟨by simp, by simp⟩ (skipLines_visible comma _) others

theorem textList_lines (first second : String) (more : List String) :
    (textList (first :: second :: more)).toList =
      '[' :: '\n' :: ((first :: second :: more).flatMap itemLine ++ [']']) := by
  unfold itemLine
  simp [textList, List.flatMap_map]

/-- The reader of lists gives back all the items, whichever way the list is laid out. -/
theorem items?_textList (items : List String) (rest : List Char) (depth fuel : Nat)
    (enough : items.length < fuel) :
    ∃ inside, (textList items).toList ++ rest = '[' :: inside ∧
      items? depth fuel inside = some (items.map .text, rest) := by
  have bracket : IsVisible ']' := by decide
  match items, enough with
  | [], enough =>
    obtain ⟨fuel, rfl⟩ := Nat.exists_eq_add_of_lt enough
    exact ⟨']' :: rest, rfl, items?_close depth _ (skipLines_visible bracket rest)⟩
  | [item], enough =>
    obtain ⟨fuel, rfl⟩ : ∃ less, fuel = less + 2 := ⟨fuel - 2, by simp at enough; omega⟩
    refine ⟨(quotedText item).toList ++ ']' :: rest, by simp [textList], ?_⟩
    obtain ⟨mark, more, shape, visible, -⟩ := quotedText_front item
    have front := skipLines_visible visible (more ++ ']' :: rest)
    rw [← List.cons_append, ← shape] at front
    exact items?_last depth fuel front (by simp) (skipLines_visible bracket rest)
  | first :: second :: more, enough =>
    refine ⟨_, ?_, items?_lines (first :: second :: more) rest depth fuel enough⟩
    simp [textList_lines]

theorem length_lt_textList (items : List String) : items.length < (textList items).toList.length := by
  have lines (items : List String) : items.length ≤ (items.flatMap itemLine).length := by
    induction items with
    | nil => simp
    | cons item items ih =>
      simp only [List.length_cons, List.flatMap_cons, List.length_append, itemLine]
      have one : (",\n".toList).length = 2 := rfl
      omega
  match items with
  | [] => simp [textList]
  | [item] => simp [textList]
  | first :: second :: more =>
    have inside := lines (first :: second :: more)
    simp only [textList_lines, List.length_cons, List.length_append] at inside ⊢
    omega

theorem scalar?_flag (value : Bool) (rest : List Char) :
    scalar? ((Value.flag value).written.toList ++ '\n' :: rest) =
      some (.bool value, '\n' :: rest) := by
  have inside : (Value.flag value).written.toList.all isWordChar = true := by cases value <;> decide
  have stop : isWordChar '\n' = false := by decide
  have front := Text.takeWhile_append_cons (List.all_eq_true.mp inside) stop rest
  have noDate : afterDate? (Value.flag value).written.toList = none := by cases value <;> decide
  have word : word ((Value.flag value).written.toList ++ '\n' :: rest) =
      (Value.flag value).written.toList := by
    simp [Toml.word, front, noDate]
  simp only [scalar?, word, List.drop_left]
  cases value <;> rfl

theorem value?_flag (value : Bool) (depth fuel : Nat) (rest : List Char) :
    value? depth (fuel + 1) ((Value.flag value).written.toList ++ '\n' :: rest) =
      some (.bool value, '\n' :: rest) := by
  have read := scalar?_flag value rest
  cases value <;>
    · simp only [Value.written] at read ⊢
      simpa [value?] using read

theorem Value.front (value : Value) :
    ∃ mark more, value.written.toList = mark :: more ∧ IsVisible mark := by
  cases value with
  | text value =>
    obtain ⟨mark, more, shape, visible, -⟩ := quotedText_front value
    exact ⟨mark, more, shape, visible⟩
  | flag value => cases value <;> exact ⟨_, _, rfl, by decide⟩
  | texts items =>
    have bracket : IsVisible '[' := by decide
    match items with
    | [] => exact ⟨'[', _, rfl, bracket⟩
    | [item] =>
      exact ⟨'[', (quotedText item).toList ++ [']'], by simp [Value.written, textList], bracket⟩
    | first :: second :: more => exact ⟨'[', _, textList_lines first second more, bracket⟩

/-- A value is read up to the line end after it. -/
theorem value?_written (value : Value) (rest : List Char) (depth fuel : Nat) (deep : 0 < depth)
    (enough : value.written.toList.length < fuel) :
    value? depth fuel (value.written.toList ++ '\n' :: rest) =
      some (value.document, '\n' :: rest) := by
  obtain ⟨fuel, rfl⟩ : ∃ less, fuel = less + 1 := ⟨fuel - 1, by omega⟩
  cases value with
  | text value => exact value?_quotedText value ⟨by simp, by simp⟩ depth fuel
  | flag value => exact value?_flag value depth fuel rest
  | texts items =>
    have length := length_lt_textList items
    simp only [Value.written] at enough ⊢
    obtain ⟨inside, shape, read⟩ :=
      items?_textList items ('\n' :: rest) (depth - 1) fuel (by omega)
    simp [shape, value?, read, Nat.ne_of_gt deep, Value.document]

/-! ## Names -/

theorem splitName?_one (name : String) : splitName? [name] = some ([], name) := rfl

theorem isVisible_of_isNameChar (bare : isNameChar c = true) :
    IsVisible c ∧ c ∉ ['[', '"', '\''] := by
  constructor <;>
    · intro member
      simp only [List.mem_cons, List.not_mem_nil, or_false] at member
      revert bare
      rcases member with rfl | rfl | rfl | rfl | rfl <;> decide

theorem IsBare.front {name : String} (bare : IsBare name) :
    ∃ mark more, name.toList = mark :: more ∧ isNameChar mark = true := by
  obtain ⟨mark, more, shape⟩ := List.exists_cons_of_ne_nil bare.1
  exact ⟨mark, more, shape, List.all_eq_true.mp bare.2 mark (by simp [shape])⟩

/-- A bare name is read up to the first character that is no blank after it. -/
theorem name?_bare {name : String} {after : List Char} (bare : IsBare name)
    (stop : isNameChar c = false) (next : skipBlanks (c :: rest) = after)
    (noDot : after.head? ≠ some '.') : name? (name.toList ++ c :: rest) = some ([name], after) := by
  obtain ⟨mark, more, shape, first⟩ := bare.front
  obtain ⟨visible, noQuote⟩ := isVisible_of_isNameChar first
  have taken := Text.takeWhile_append_cons (List.all_eq_true.mp bare.2) stop rest
  have part : namePart? (skipBlanks (name.toList ++ c :: rest)) = some (name.toList, c :: rest) := by
    rw [shape, List.cons_append] at taken ⊢
    have kept : skipBlanks (mark :: (more ++ c :: rest)) = mark :: (more ++ c :: rest) :=
      skipBlanks_append no_blanks visible _
    simp only [List.mem_cons, List.not_mem_nil, or_false, not_or] at noQuote
    simp [kept, namePart?, taken, noQuote]
  have whole : nameWithin? ((name.toList ++ c :: rest).length + 1) (name.toList ++ c :: rest) =
      some ([name], after) := by
    rw [nameWithin?, part]
    cases after with
    | nil => simp [next]
    | cons d more =>
      have other : d ≠ '.' := by simpa using noDot
      simp [next, other]
  rw [name?, whole]
  rfl

/-! ## Lines -/

/-- The characters are a statement, up to the line end after them. -/
def Line (part : List Char) (statement : Statement) : Prop :=
  (∃ mark more, part = mark :: more ∧ IsVisible mark) ∧
    ∀ rest, statement? (part ++ '\n' :: rest) = some (statement, '\n' :: rest)

/-- The text has these statements, each with a line end after it, and perhaps empty lines. -/
inductive Lines : List Statement → List Char → Prop where
  | nil : Lines [] []
  | empty {statements : List Statement} {text : List Char} (rest : Lines statements text) :
      Lines statements ('\n' :: text)
  | line {part text : List Char} {statement : Statement} {statements : List Statement}
      (first : Line part statement) (rest : Lines statements text) :
      Lines (statement :: statements) (part ++ '\n' :: text)

theorem statements?_eq_some {statements : List Statement} {text : List Char}
    (lines : Lines statements text) :
    ∀ fuel, text.length < fuel → statements? fuel text = some statements := by
  induction lines with
  | nil =>
    intro fuel enough
    obtain ⟨fuel, rfl⟩ := Nat.exists_eq_add_of_lt enough
    rfl
  | @empty statements text rest ih =>
    intro fuel enough
    obtain ⟨fuel, rfl⟩ : ∃ less, fuel = less + 1 := ⟨fuel - 1, by omega⟩
    have later := ih (fuel + 1) (by simp at enough; omega)
    -- The reader skips the empty line and takes the next statement with the same fuel.
    rw [statements?] at later ⊢
    rwa [skipLines_lineEnd]
  | @line part text statement statements first rest ih =>
    intro fuel enough
    obtain ⟨fuel, rfl⟩ : ∃ less, fuel = less + 1 := ⟨fuel - 1, by omega⟩
    obtain ⟨⟨mark, more, rfl, visible⟩, read⟩ := first
    have later := ih fuel (by simp at enough; omega)
    have kept := skipLines_visible visible (more ++ '\n' :: text)
    have taken := read text
    rw [List.cons_append] at taken ⊢
    simp [statements?, kept, taken, emptyLine?_lineEnd, later]

theorem line_header {name : String} (bare : IsBare name) :
    Line ('[' :: (name.toList ++ [']'])) (.openTable [] name) := by
  refine ⟨⟨'[', _, rfl, by decide⟩, fun rest => ?_⟩
  have bracket : skipBlanks (']' :: '\n' :: rest) = ']' :: '\n' :: rest := rfl
  have stop : isNameChar ']' = false := by decide
  have read := name?_bare bare stop bracket (by simp)
  obtain ⟨mark, more, shape, first⟩ := bare.front
  have single := (isVisible_of_isNameChar first).2
  simp only [List.mem_cons, List.not_mem_nil, or_false, not_or] at single
  rw [shape, List.cons_append] at read
  simp [shape, statement?, single, read, splitName?_one, after?]

theorem line_entry {name : String} (bare : IsBare name) (value : Value) :
    Line (name.toList ++ ' ' :: '=' :: ' ' :: value.written.toList)
      (.assign [] name value.document) := by
  obtain ⟨mark, more, shape, first⟩ := bare.front
  obtain ⟨visible, noBracket⟩ := isVisible_of_isNameChar first
  refine ⟨⟨mark, _, by rw [shape, List.cons_append], visible⟩, fun rest => ?_⟩
  obtain ⟨back, backDef⟩ : ∃ back, back = value.written.toList ++ '\n' :: rest := ⟨_, rfl⟩
  have equals : skipBlanks (' ' :: '=' :: ' ' :: back) = '=' :: ' ' :: back := rfl
  have stop : isNameChar ' ' = false := by decide
  have read := name?_bare bare stop equals (by simp)
  have front : skipBlanks (' ' :: back) = back := by
    have blank : ∀ b ∈ [' '], isBlank b = true := by simp [isBlank]
    obtain ⟨mark, more, shape, visible⟩ := value.front
    rw [backDef, shape]
    exact skipBlanks_append blank visible _
  have noHeader (more : List Char) : name.toList ++ ' ' :: '=' :: ' ' :: back ≠ '[' :: more := by
    rw [shape]
    intro same
    exact noBracket (by simp [(List.cons.inj same).1])
  have enough : value.written.toList.length < (name.toList ++ ' ' :: '=' :: ' ' :: back).length + 1 := by
    simp only [backDef, List.length_append, List.length_cons]
    omega
  have written := value?_written value rest maxDepth _ (by decide) enough
  rw [← backDef] at written
  rw [List.append_assoc, List.cons_append, List.cons_append, List.cons_append, ← backDef,
    statement?.eq_3 _ (fun more => noHeader ('[' :: more)) noHeader]
  simp only [read, splitName?_one, after?, if_true, front, written, Option.bind_eq_bind,
    Option.bind_some]
  rfl

theorem lines_entries (entries : List (String × Value)) (bare : ∀ entry ∈ entries, IsBare entry.1)
    {statements : List Statement} {text : List Char} (rest : Lines statements text) :
    Lines (entries.map (fun entry => .assign [] entry.1 entry.2.document) ++ statements)
      (entries.flatMap (fun entry =>
        entry.1.toList ++ ' ' :: '=' :: ' ' :: (entry.2.written.toList ++ ['\n'])) ++ text) := by
  induction entries with
  | nil => exact rest
  | cons entry entries ih =>
    have first := line_entry (bare entry (.head entries)) entry.2
    have later := ih fun other member => bare other (.tail entry member)
    simpa using Lines.line first later

theorem lines_section (part : Section) {statements : List Statement} {text : List Char}
    (rest : Lines statements text) :
    Lines (part.statements ++ statements) (part.written.toList ++ text) := by
  have later := lines_entries part.entries part.bareEntries rest
  have header := Lines.line (line_header part.bare) later
  simpa [Section.statements, Section.written, writtenTable, List.flatMap_map] using header

theorem lines_sections (parts : List Section) :
    Lines (parts.flatMap Section.statements)
      ("\n".intercalate (parts.map Section.written)).toList := by
  induction parts with
  | nil => exact .nil
  | cons part parts ih =>
    cases parts with
    | nil => simpa using lines_section part .nil
    | cons next parts => simpa using lines_section part (.empty ih)

/-! ## Tables -/

theorem lookup_eq_none {entries : Entries} {name : String} (fresh : name ∉ entries.map Prod.fst) :
    entries.lookup name = none := by
  rw [List.lookup_eq_none_iff]
  intro entry member
  simp only [List.mem_map, not_exists, not_and] at fresh
  simpa using Ne.symm (fresh entry member)

theorem replace_last {before : Entries} {name : String} (fresh : name ∉ before.map Prod.fst)
    (old new : Item) :
    Entries.replace (before ++ [(name, old)]) name new = before ++ [(name, new)] := by
  have kept (entry : String × Item) (member : entry ∈ before) :
      (if entry.1 = name then (name, new) else entry) = entry := by
    refine if_neg fun same => fresh ?_
    exact List.mem_map.mpr ⟨entry, member, same⟩
  rw [Entries.replace, List.map_append, List.map_congr_left kept]
  simp

variable {before : Entries} {name : String}

theorem add?_header (fresh : name ∉ before.map Prod.fst) (path : List String) :
    Draft.add? ⟨⟨.header, before⟩, path⟩ (.openTable [] name) =
      some ⟨⟨.header, before ++ [(name, .table .header [])]⟩, [name]⟩ := by
  simp [Draft.add?, OpenTable.change, OpenTable.defineTable, lookup_eq_none fresh]

theorem add?_entry (fresh : name ∉ before.map Prod.fst) {held : Entries} {entry : String}
    (new : entry ∉ held.map Prod.fst) (document : Document) :
    Draft.add? ⟨⟨.header, before ++ [(name, .table .header held)]⟩, [name]⟩
        (.assign [] entry document) =
      some ⟨⟨.header, before ++ [(name, .table .header (held ++ [(entry, .value document)]))]⟩,
        [name]⟩ := by
  have found : (before ++ [(name, Item.table .header held)]).lookup name =
      some (.table .header held) := by
    simp [List.lookup_append, lookup_eq_none fresh]
  simp [Draft.add?, OpenTable.change, found, OpenTable.addEntry, OpenTable.addLast,
    lookup_eq_none new, replace_last fresh]

/-- Entries after a header go into its table, which is the last. -/
theorem foldlM_entries (fresh : name ∉ before.map Prod.fst) (entries : List (String × Value)) :
    ∀ held : Entries, (held.map Prod.fst ++ entries.map Prod.fst).Nodup →
      (entries.map fun entry => Statement.assign [] entry.1 entry.2.document).foldlM Draft.add?
          ⟨⟨.header, before ++ [(name, .table .header held)]⟩, [name]⟩ =
        some ⟨⟨.header, before ++ [(name, .table .header
          (held ++ entries.map fun entry => (entry.1, .value entry.2.document)))]⟩, [name]⟩ := by
  induction entries with
  | nil => simp
  | cons entry entries ih =>
    intro held distinct
    rw [List.map_cons] at distinct
    have new : entry.1 ∉ held.map Prod.fst := fun member =>
      (List.nodup_append.mp distinct).2.2 _ member _ (.head _) rfl
    have later := ih (held ++ [(entry.1, .value entry.2.document)]) (by simpa using distinct)
    rw [List.map_cons, List.foldlM_cons, add?_entry fresh new]
    simpa using later

/-- The table of a part, as the draft holds it. -/
def Section.item (part : Section) : String × Item :=
  (part.name, .table .header (part.entries.map fun entry => (entry.1, .value entry.2.document)))

theorem foldlM_statements (part : Section) (fresh : part.name ∉ before.map Prod.fst)
    (path : List String) :
    part.statements.foldlM Draft.add? ⟨⟨.header, before⟩, path⟩ =
      some ⟨⟨.header, before ++ [part.item]⟩, [part.name]⟩ := by
  have entries := foldlM_entries fresh part.entries [] (by simpa using part.distinct)
  rw [Section.statements, List.foldlM_cons, add?_header fresh]
  simpa [Section.item] using entries

theorem foldlM_sections (parts : List Section) :
    ∀ (before : Entries) (path : List String),
      (before.map Prod.fst ++ parts.map Section.name).Nodup →
      ∃ last, (parts.flatMap Section.statements).foldlM Draft.add? ⟨⟨.header, before⟩, path⟩ =
        some ⟨⟨.header, before ++ parts.map Section.item⟩, last⟩ := by
  induction parts with
  | nil => exact fun before path _ => ⟨path, by simp⟩
  | cons part parts ih =>
    intro before path distinct
    rw [List.map_cons] at distinct
    have fresh : part.name ∉ before.map Prod.fst := fun member =>
      (List.nodup_append.mp distinct).2.2 _ member _ (.head _) rfl
    obtain ⟨last, later⟩ :=
      ih (before ++ [part.item]) [part.name] (by simpa [Section.item] using distinct)
    refine ⟨last, ?_⟩
    rw [List.flatMap_cons, List.foldlM_append, foldlM_statements part fresh]
    simpa using later

theorem document_item (part : Section) : part.item.2.document = part.document := by
  have entries (entries : List (String × Value)) :
      documents (entries.map fun entry => (entry.1, .value entry.2.document)) =
        entries.map fun entry => (entry.1, entry.2.document) := by
    induction entries with
    | nil => rfl
    | cons entry entries ih => simp [documents, Item.document, ih]
  rw [Section.item, Item.document, entries]
  rfl

theorem documents_items (parts : List Section) :
    documents (parts.map Section.item) = parts.map fun part => (part.name, part.document) := by
  induction parts with
  | nil => rfl
  | cons part parts ih =>
    have first := document_item part
    simp only [List.map_cons, Section.item, documents] at first ⊢
    rw [first, ← ih]

/-- Tables with distinct names are read back. -/
theorem read?_written (parts : List Section) (distinct : (parts.map Section.name).Nodup) :
    read? ("\n".intercalate (parts.map Section.written)).toList =
      some (.table (parts.map fun part => (part.name, part.document))) := by
  have statements := statements?_eq_some (lines_sections parts)
  obtain ⟨last, drafted⟩ := foldlM_sections parts [] [] (by simpa using distinct)
  have noMark (rest : List Char) :
      ("\n".intercalate (parts.map Section.written)).toList ≠ '\ufeff' :: rest := by
    match parts with
    | [] => simp
    | [part] => simp [Section.written, writtenTable]
    | part :: next :: parts => simp [Section.written, writtenTable]
  rw [read?]
  · rw [statements _ (Nat.lt_succ_self _), Option.bind_eq_bind, Option.bind_some, drafted,
      Option.bind_eq_bind, Option.bind_some, List.nil_append, documents_items]
    rfl
  · exact noMark

end Workplan.Toml
