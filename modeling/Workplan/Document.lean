/-
# Workplan.Document — data that names its own parts

A document is what a data format holds once its notation is gone: texts, numbers, lists and tables
of named entries. Records are read from a table by the names of their fields, or from a list by
their places.
-/
namespace Workplan

set_option autoImplicit false

inductive Document where
  | null
  | bool (value : Bool)
  | integer (value : Int)
  /-- A number that is not written as a whole one. -/
  | real (numeral : String)
  /-- A point in time that is no text. -/
  | moment (written : String)
  | text (value : String)
  | list (items : List Document)
  | table (entries : List (String × Document))
  deriving Inhabited

namespace Document

/-- The entry of a table with the given name. -/
def entry? (name : String) : Document → Option Document
  | table entries => entries.lookup name
  | _ => none

/-- The field of a record, by its name in a table or by its place in a list. -/
def field? (name : String) (place : Nat) : Document → Option Document
  | table entries => entries.lookup name
  | list items => items[place]?
  | _ => none

/-- Whether the document can be read as a record with that many fields. -/
def isRecord (fields : Nat) : Document → Bool
  | table _ => true
  | list items => items.length ≤ fields
  | _ => false

def text? : Document → Option String
  | text value => some value
  | _ => none

def bool? : Document → Option Bool
  | bool value => some value
  | _ => none

def integer? : Document → Option Int
  | integer value => some value
  | _ => none

/-- The items of a list, if each can be read. -/
def listOf? {α : Type} (read : Document → Option α) : Document → Option (List α)
  | list items => items.mapM read
  | _ => none

/-- A value that may be left out, but if it is there has to be readable. -/
def orElse? {α : Type} (default : α) (read : Document → Option α) : Option Document → Option α
  | none => some default
  | some document => read document

/-- A value for which null stands as none. -/
def nullable? {α : Type} (read : Document → Option α) : Document → Option (Option α)
  | null => some none
  | document => (read document).map some

end Document

end Workplan
