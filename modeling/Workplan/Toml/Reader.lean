/-
# Workplan.Toml.Reader — reading TOML

A TOML text is a list of statements, one on a line: a header that opens a table, a header that adds
a table to a list of tables, or a name and its value, which goes into the table that is open. A value
may run over several lines. Reading fails on anything else, and on a name defined twice.
-/
import Workplan.Toml.Words
import Workplan.Toml.Scalar
import Workplan.Toml.Table

namespace Workplan.Toml

set_option autoImplicit false

/-- The last part of a name, and the parts before it. -/
def splitName? (name : List String) : Option (List String × String) :=
  name.getLast?.map fun last => (name.dropLast, last)

mutual

/-- A value at the front of a text, within so many lists and tables at most; the fuel bounds how many
values there can be. -/
def value? (depth : Nat) : Nat → List Char → Option (Document × List Char)
  | 0, _ => none
  | fuel + 1, text =>
    match text with
    | '[' :: rest => do
      if depth = 0 then none
      let (items, rest) ← items? (depth - 1) fuel rest
      return (.list items, rest)
    | '\x7b' :: rest => do
      if depth = 0 then none
      match skipBlanks rest with
      | '\x7d' :: rest => return (.table [], rest)
      | rest =>
        let (entries, rest) ← entries? (depth - 1) fuel rest
        return (← inlineTable? entries, rest)
    | '"' :: _ | '\'' :: _ => do
      let (inside, rest) ← quoted? text
      return (.text (String.ofList inside), rest)
    | _ => scalar? text

/-- The items of a list up to its closing bracket; a comma may follow the last. -/
def items? (depth : Nat) : Nat → List Char → Option (List Document × List Char)
  | 0, _ => none
  | fuel + 1, text =>
    match skipLines text with
    | ']' :: rest => some ([], rest)
    | text => do
      let (item, rest) ← value? depth fuel text
      match skipLines rest with
      | ']' :: rest => return ([item], rest)
      | ',' :: rest =>
        let (items, rest) ← items? depth fuel rest
        return (item :: items, rest)
      | _ => none

/-- The entries of a table on one line up to its closing brace; no comma follows the last. -/
def entries? (depth : Nat) :
    Nat → List Char → Option (List (List String × String × Document) × List Char)
  | 0, _ => none
  | fuel + 1, text => do
    let (name, rest) ← name? text
    let (path, last) ← splitName? name
    let (document, rest) ← value? depth fuel (skipBlanks (← after? '=' rest))
    match skipBlanks rest with
    | '\x7d' :: rest => return ([(path, last, document)], rest)
    | ',' :: rest =>
      let (entries, rest) ← entries? depth fuel rest
      return ((path, last, document) :: entries, rest)
    | _ => none

end

/-- One line of a TOML text, or the lines of one value. -/
inductive Statement where
  | openTable (path : List String) (name : String)
  | openElement (path : List String) (name : String)
  | assign (path : List String) (name : String) (document : Document)

/-- A statement at the front of a text, up to its closing bracket or the end of its value. -/
def statement? : List Char → Option (Statement × List Char)
  | '[' :: '[' :: rest => do
    let (name, rest) ← name? rest
    let (path, last) ← splitName? name
    return (.openElement path last, ← after? ']' (← after? ']' rest))
  | '[' :: rest => do
    let (name, rest) ← name? rest
    let (path, last) ← splitName? name
    return (.openTable path last, ← after? ']' rest)
  | text => do
    let (name, rest) ← name? text
    let (path, last) ← splitName? name
    let (document, rest) ← value? maxDepth (text.length + 1) (skipBlanks (← after? '=' rest))
    return (.assign path last document, rest)

/-- All statements of a text; each ends its line. -/
def statements? : Nat → List Char → Option (List Statement)
  | 0, _ => none
  | fuel + 1, text =>
    match skipLines text with
    | [] => some []
    | text => do
      let (statement, rest) ← statement? text
      let rest ← emptyLine? rest
      return statement :: (← statements? fuel rest)

/-- The whole text while it is read: all tables, and the path to the one that is open. -/
structure Draft where
  root : OpenTable := {}
  path : List String := []

/-- Adds a statement to what has been read. -/
def Draft.add? (draft : Draft) : Statement → Option Draft
  | .openTable path name => do
    let root ← draft.root.change false (OpenTable.defineTable name) path
    return ⟨root, path ++ [name]⟩
  | .openElement path name => do
    let root ← draft.root.change false (OpenTable.defineElement name) path
    return ⟨root, path ++ [name]⟩
  | .assign path name document => do
    let root ← draft.root.change false (OpenTable.addEntry path name document) draft.path
    return { draft with root }

/-- The document that a TOML text holds. A byte order mark may stand in front. -/
def read? (text : List Char) : Option Document := do
  let text :=
    match text with
    | '\ufeff' :: rest => rest
    | _ => text
  let statements ← statements? (text.length + 1) text
  let draft ← statements.foldlM Draft.add? {}
  return .table (documents draft.root.entries)

end Workplan.Toml
