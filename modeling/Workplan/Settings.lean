/-
# Workplan.Settings — the settings of a plan

What new links ask, whether rescheduling is on, and the working week: the names of the weekly days
off and the holidays. The settings are stored as a TOML text with a table for each of the three
parts. All of it may be left out of the text; what is there must be of the right kind, and the names
of the days are checked once all else has been read.

* `read` and `write` go between settings and text, `load` and `save` between settings and a file.
-/
import Workplan.Record
import Workplan.Toml.Reader
import Workplan.Toml.Writer

namespace Workplan

set_option autoImplicit false

structure Settings where
  defaults : LinkDefaults := {}
  enabled : Bool := true
  weekends : List String := ["Sat", "Sun"]
  holidays : List Date := []
  deriving DecidableEq

/-- Why a text holds no settings. -/
inductive SettingsError where
  | malformed
  | unknownWeekday (name : String)
  deriving DecidableEq

def SettingsError.message : SettingsError → String
  | malformed => "Failed to parse configuration"
  | unknownWeekday name => s!"Invalid configuration: unknown weekday '{name}'"

namespace Settings

/-! ## The working week -/

/-- The day that a name stands for. -/
def weekday (name : String) : Except SettingsError Weekday :=
  match Weekday.read? name.toList with
  | some day => .ok day
  | none => .error (.unknownWeekday name)

/-- The working week, if all names of days are known. -/
def week (settings : Settings) : Except SettingsError WorkWeek :=
  match settings.weekends.mapM weekday with
  | .error reason => .error reason
  | .ok daysOff => .ok (settings.holidays.foldl WorkWeek.addHoliday { daysOff })

/-! ## Reading -/

/-- A word from a fixed list: as a text, or as the name of the one entry, with nothing in it, of a
table. -/
def word? (document : Document) : Option (List Char) :=
  match document with
  | .text value => some value.toList
  | .table [(name, .table [])] | .table [(name, .list [])] => some name.toList
  | _ => none

def relation? (document : Document) : Option Relation :=
  (word? document).bind Relation.ofMnemonic?

def hardness? (document : Document) : Option Hardness :=
  (word? document).bind Hardness.ofName?

/-- A table that may be left out; a list stands for its entries in their order, and a point in time
for a table that has none of them. -/
def section? (name : String) (document : Document) : Option Document :=
  match document.entry? name with
  | none | some (.moment _) => some (.table [])
  | some (.table entries) => some (.table entries)
  | some (.list items) => some (.list items)
  | some _ => none

/-- The settings that a document holds, the names of the days unchecked. -/
def ofDocument? (document : Document) : Option Settings := do
  let links ← section? "dependencies" document
  let scheduler ← section? "scheduler" document
  let calendar ← section? "calendar" document
  let usual : Settings := {}
  let relation ←
    Document.orElse? usual.defaults.relation relation? (links.field? "default_constraint" 0)
  let hardness ←
    Document.orElse? usual.defaults.hardness hardness? (links.field? "default_hardness" 1)
  let enabled ← Document.orElse? usual.enabled Document.bool? (scheduler.field? "enabled" 0)
  let weekends ←
    Document.orElse? usual.weekends (Document.listOf? Document.text?)
      (calendar.field? "weekends" 0)
  let holidays ←
    Document.orElse? usual.holidays (Document.listOf? Date.ofDocument?)
      (calendar.field? "holidays" 1)
  return { defaults := { relation, hardness }, enabled, weekends, holidays }

/-- The settings that a text holds. -/
def read (text : List Char) : Except SettingsError Settings :=
  match (Toml.read? text).bind ofDocument? with
  | none => .error .malformed
  | some settings =>
    match settings.week with
    | .error reason => .error reason
    | .ok _ => .ok settings

/-! ## Writing -/

/-- The written form of the settings. -/
def write (settings : Settings) : String :=
  "\n".intercalate
    [Toml.writtenTable "dependencies"
      [("default_constraint", Toml.quotedText settings.defaults.relation.mnemonic),
        ("default_hardness", Toml.quotedText settings.defaults.hardness.name)],
    Toml.writtenTable "scheduler" [("enabled", if settings.enabled then "true" else "false")],
    Toml.writtenTable "calendar"
      [("weekends", Toml.textList settings.weekends),
        ("holidays", Toml.textList (settings.holidays.map toString))]]

end Settings

/-! ## Files -/

/-- What a path leads to. -/
inductive Place where
  | nothing
  | folder
  | file (text : String)
  deriving DecidableEq

/-- Why settings cannot be loaded or saved. -/
inductive StoreError where
  | unreadable
  | unwritable
  | invalid (reason : SettingsError)
  deriving DecidableEq

/-- What was being done when it failed. -/
def StoreError.context : StoreError → String
  | unreadable => "Failed to read config"
  | unwritable => "Failed to write config"
  | invalid _ => "Failed to parse config"

namespace Settings

/-- The settings stored at a place; where nothing is, they are the usual ones. -/
def load : Place → Except StoreError Settings
  | .nothing => .ok {}
  | .folder => .error .unreadable
  | .file text =>
    match read text.toList with
    | .ok settings => .ok settings
    | .error reason => .error (.invalid reason)

/-- What is at a place once the settings are saved there. -/
def save (settings : Settings) : Place → Except StoreError Place
  | .folder => .error .unwritable
  | _ => .ok (.file settings.write)

end Settings

end Workplan
