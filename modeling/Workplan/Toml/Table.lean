/-
# Workplan.Toml.Table — tables that grow by statements

While a TOML text is read, its tables are open: a later statement may add to them. What may be added
depends on how a table came about. A header may define only a table that was not defined before; a
dotted name may add only to tables that dotted names made; and nothing is added to a value.
-/
import Workplan.Document

namespace Workplan.Toml

set_option autoImplicit false

/-- How a table came about: by a header of its own, on the way to another header, or on the way of
a dotted name. -/
inductive Making where
  | header | implied | dotted
  deriving DecidableEq

/-- What an entry of an open table holds. -/
inductive Item where
  | value (document : Document)
  | table (made : Making) (entries : List (String × Item))
  /-- The tables of a list of tables; only the last one is open. -/
  | tables (elements : List (List (String × Item)))

/-- The entries of an open table. -/
abbrev Entries := List (String × Item)

/-- A table and how it came about. -/
structure OpenTable where
  made : Making := .header
  entries : Entries := []

namespace Entries

/-- Puts an item in the place of the one with the same name. -/
def replace (entries : Entries) (name : String) (item : Item) : Entries :=
  entries.map fun entry => if entry.1 = name then (name, item) else entry

end Entries

namespace OpenTable

/-- Follows a path to a table, makes those that are missing, and changes the last one. A path of a
dotted name does not lead into tables that have headers. -/
def change (dotted : Bool) (act : OpenTable → Option OpenTable) :
    List String → OpenTable → Option OpenTable
  | [], t => act t
  | name :: path, t =>
    match t.entries.lookup name with
    | none => do
      let made ← change dotted act path { made := if dotted then .dotted else .implied }
      return { t with entries := t.entries ++ [(name, .table made.made made.entries)] }
    | some (.value _) => none
    | some (.table made entries) =>
      if dotted && made = .header then none
      else do
        let changed ← change dotted act path ⟨made, entries⟩
        return { t with entries := Entries.replace t.entries name (.table changed.made changed.entries) }
    | some (.tables elements) => do
      let last ← elements.getLast?
      let changed ← change dotted act path { entries := last }
      return { t with
        entries := Entries.replace t.entries name (.tables (elements.dropLast ++ [changed.entries])) }

/-- Adds an entry with a new name to a table; the table is the one that the names started from, or
else one that dotted names made. -/
def addLast (isStart : Bool) (name : String) (document : Document) (t : OpenTable) :
    Option OpenTable :=
  if decide (t.made = .dotted) = isStart then none
  else if (t.entries.lookup name).isSome then none
  else some { t with entries := t.entries ++ [(name, .value document)] }

/-- Adds an entry under a dotted name. -/
def addEntry (path : List String) (name : String) (document : Document) (t : OpenTable) :
    Option OpenTable :=
  change true (addLast path.isEmpty name document) path t

/-- Defines a table with a header of its own. -/
def defineTable (name : String) (t : OpenTable) : Option OpenTable :=
  match t.entries.lookup name with
  | none => some { t with entries := t.entries ++ [(name, .table .header [])] }
  | some (.table .implied entries) =>
    some { t with entries := Entries.replace t.entries name (.table .header entries) }
  | some _ => none

/-- Adds a table to a list of tables. -/
def defineElement (name : String) (t : OpenTable) : Option OpenTable :=
  match t.entries.lookup name with
  | none => some { t with entries := t.entries ++ [(name, .tables [[]])] }
  | some (.tables elements) =>
    some { t with entries := Entries.replace t.entries name (.tables (elements ++ [[]])) }
  | some _ => none

end OpenTable

mutual

/-- The finished document of an item. -/
def Item.document : Item → Document
  | .value document => document
  | .table _ entries => .table (documents entries)
  | .tables elements => .list (elementDocuments elements)

def documents : List (String × Item) → List (String × Document)
  | [] => []
  | (name, item) :: rest => (name, item.document) :: documents rest

def elementDocuments : List (List (String × Item)) → List Document
  | [] => []
  | entries :: rest => .table (documents entries) :: elementDocuments rest

end

/-- The document of a table whose entries are given by dotted names, as in a table on one line. -/
def inlineTable? (entries : List (List String × String × Document)) : Option Document := do
  let t ← entries.foldlM (fun t entry => OpenTable.addEntry entry.1 entry.2.1 entry.2.2 t) {}
  return .table (documents t.entries)

end Workplan.Toml
