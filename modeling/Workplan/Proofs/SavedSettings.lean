/-
# Workplan.Proofs.SavedSettings — saved settings are loaded

Settings are saved as they are and checked when they are loaded. The written text holds all of them, so
what is loaded are the same settings, unless the check finds a day off that is no day of the week: then
nothing is loaded, and the first such name is told.

* `ofDocument?_sections` — the document of the written tables holds the settings;
* `read_write` — only the check stands between written settings and the settings;
* `load_save` — what saved settings load as.
-/
import Workplan.Proofs.OutlineEdits
import Workplan.Proofs.WrittenDates
import Workplan.Proofs.WrittenTables
import Workplan.Settings

namespace Workplan

set_option autoImplicit false

/-- The text is a name of a day of the week. -/
def Weekday.IsName (name : String) : Prop := ∃ day, isNamed name.toList day = true

namespace Settings

open Toml

/-! ## The text -/

def linkSection (settings : Settings) : Section where
  name := "dependencies"
  entries := [("default_constraint", .text settings.defaults.relation.mnemonic),
    ("default_hardness", .text settings.defaults.hardness.name)]

def schedulerSection (settings : Settings) : Section where
  name := "scheduler"
  entries := [("enabled", .flag settings.enabled)]

def calendarSection (settings : Settings) : Section where
  name := "calendar"
  entries := [("weekends", .texts settings.weekends),
    ("holidays", .texts (settings.holidays.map toString))]

/-- The tables in which settings are written. -/
def sections (settings : Settings) : List Section :=
  [settings.linkSection, settings.schedulerSection, settings.calendarSection]

theorem write_eq (settings : Settings) :
    settings.write = "\n".intercalate (settings.sections.map Section.written) := rfl

theorem listOf?_map {α : Type} {read : Document → Option α} {document : α → Document}
    (inverse : ∀ a, read (document a) = some a) (items : List α) :
    Document.listOf? read (.list (items.map document)) = some items := by
  rw [Document.listOf?]
  induction items with
  | nil => rfl
  | cons item items ih =>
    rw [List.map_cons, List.mapM_cons, inverse, ih]
    rfl

theorem text?_text (value : String) : Document.text? (.text value) = some value := rfl

theorem dateOfDocument?_text (d : Date) : Date.ofDocument? (.text (toString d)) = some d := by
  have written : (toString d).toList = d.chars := String.toList_ofList
  rw [Date.ofDocument?, Document.text?, Option.bind_some, written, Date.read?_chars]

theorem ofDocument?_sections (settings : Settings) :
    ofDocument? (.table (settings.sections.map fun part => (part.name, part.document))) =
      some settings := by
  obtain ⟨document, shape⟩ : ∃ document, document =
      Document.table (settings.sections.map fun part => (part.name, part.document)) := ⟨_, rfl⟩
  have links : section? "dependencies" document = some settings.linkSection.document := by
    rw [shape]; rfl
  have scheduler : section? "scheduler" document = some settings.schedulerSection.document := by
    rw [shape]; rfl
  have calendar : section? "calendar" document = some settings.calendarSection.document := by
    rw [shape]; rfl
  have relation (usual : Relation) : Document.orElse? usual relation?
      (settings.linkSection.document.field? "default_constraint" 0) =
        some settings.defaults.relation := Relation.ofMnemonic?_mnemonic _
  have hardness (usual : Hardness) : Document.orElse? usual hardness?
      (settings.linkSection.document.field? "default_hardness" 1) =
        some settings.defaults.hardness := by
    change Hardness.ofName? settings.defaults.hardness.name.toList = _
    cases settings.defaults.hardness <;> rfl
  have enabled (usual : Bool) : Document.orElse? usual Document.bool?
      (settings.schedulerSection.document.field? "enabled" 0) = some settings.enabled := rfl
  have weekends (usual : List String) : Document.orElse? usual (Document.listOf? Document.text?)
      (settings.calendarSection.document.field? "weekends" 0) = some settings.weekends :=
    listOf?_map text?_text settings.weekends
  have holidays (usual : List Date) : Document.orElse? usual (Document.listOf? Date.ofDocument?)
      (settings.calendarSection.document.field? "holidays" 1) = some settings.holidays := by
    change Document.listOf? _ (.list ((settings.holidays.map toString).map .text)) = _
    rw [List.map_map]
    exact listOf?_map dateOfDocument?_text settings.holidays
  rw [← shape, ofDocument?, links, scheduler, calendar]
  simp only [Option.bind_eq_bind, Option.bind_some, relation, hardness, enabled, weekends, holidays]
  rfl

theorem read_write (settings : Settings) :
    read settings.write.toList = settings.week.map fun _ => settings := by
  have distinct : (settings.sections.map Section.name).Nodup := by
    simp [sections, linkSection, schedulerSection, calendarSection]
  have parsed : (read? settings.write.toList).bind ofDocument? = some settings := by
    rw [write_eq, read?_written settings.sections distinct, Option.bind_some, ofDocument?_sections]
  simp only [read, parsed]
  cases settings.week <;> rfl

/-! ## The check -/

theorem weekday_eq_ok {name : String} (known : Weekday.IsName name) :
    ∃ day, weekday name = .ok day := by
  obtain ⟨day, named⟩ := known
  have found : (Weekday.read? name.toList).isSome = true :=
    List.find?_isSome.mpr ⟨day, Weekday.mem_all day, named⟩
  obtain ⟨first, read⟩ := Option.isSome_iff_exists.mp found
  exact ⟨first, by rw [weekday, read]⟩

theorem weekday_eq_error {name : String} (unknown : ¬ Weekday.IsName name) :
    weekday name = .error (.unknownWeekday name) := by
  have missing : Weekday.read? name.toList = none :=
    List.find?_eq_none.mpr fun day _ named => unknown ⟨day, named⟩
  rw [weekday, missing]

theorem exists_mapM_weekday {names : List String} (known : ∀ name ∈ names, Weekday.IsName name) :
    ∃ days, names.mapM weekday = .ok days := by
  cases checked : names.mapM weekday with
  | ok days => exact ⟨days, rfl⟩
  | error reason =>
    obtain ⟨name, member, reason, refused⟩ := exists_mapM_error_iff.mp ⟨reason, checked⟩
    obtain ⟨day, read⟩ := weekday_eq_ok (known name member)
    rw [read] at refused
    contradiction

/-- The check passes if all days off are days of the week, and else names the first that is none. -/
theorem week_spec (settings : Settings) :
    ((∀ name ∈ settings.weekends, Weekday.IsName name) → ∃ week, settings.week = .ok week) ∧
      ∀ before name after, settings.weekends = before ++ name :: after →
        (∀ known ∈ before, Weekday.IsName known) → ¬ Weekday.IsName name →
        settings.week = .error (.unknownWeekday name) := by
  constructor
  · intro known
    obtain ⟨days, checked⟩ := exists_mapM_weekday known
    exact ⟨_, by rw [week, checked]⟩
  · intro before name after shape known unknown
    obtain ⟨days, checked⟩ := exists_mapM_weekday known
    have stopped : settings.weekends.mapM weekday = .error (.unknownWeekday name) := by
      rw [shape, List.mapM_append, checked, List.mapM_cons, weekday_eq_error unknown]
      rfl
    rw [week, stopped]

/-! ## Files -/

theorem load_write (settings : Settings) : load (.file settings.write) =
    (settings.week.map fun _ => settings).mapError StoreError.invalid := by
  rw [load, read_write]
  cases settings.week <;> rfl

/-- Saved settings load as the same settings if all their days off are days of the week. If not, they
are saved all the same, and loading fails and tells the first that is none. -/
theorem load_save (settings : Settings) {place saved : Place}
    (stored : settings.save place = .ok saved) :
    ((∀ name ∈ settings.weekends, Weekday.IsName name) → load saved = .ok settings) ∧
      ∀ before name after, settings.weekends = before ++ name :: after →
        (∀ known ∈ before, Weekday.IsName known) → ¬ Weekday.IsName name →
        load saved = .error (.invalid (.unknownWeekday name)) := by
  have written : saved = .file settings.write := by
    cases place <;> cases stored <;> rfl
  obtain ⟨passes, stops⟩ := settings.week_spec
  rw [written, load_write]
  constructor
  · intro known
    obtain ⟨week, checked⟩ := passes known
    simp only [checked, Except.map, Except.mapError]
  · intro before name after shape known unknown
    simp only [stops before name after shape known unknown, Except.map, Except.mapError]

/-- Days off in either form of their names, and holidays at both ends of the calendar. -/
def farSettings : Settings where
  defaults := { relation := .startFinish, hardness := .rubber }
  enabled := false
  weekends := ["fri", "SATURDAY"]
  holidays := [.first, .last]

theorem load_save_far :
    farSettings.save .nothing = .ok (.file farSettings.write) ∧
      load (.file farSettings.write) = .ok farSettings := by
  have known (name : String) (member : name ∈ farSettings.weekends) : Weekday.IsName name := by
    rcases List.mem_pair.mp member with rfl | rfl
    · exact ⟨.friday, by decide⟩
    · exact ⟨.saturday, by decide⟩
  have stored : farSettings.save .nothing = .ok (.file farSettings.write) := rfl
  exact ⟨stored, (load_save farSettings stored).1 known⟩

/-- Settings with a day off that is no day of the week. -/
def oddSettings : Settings where
  weekends := ["Someday"]

/-- Settings with such a day off are saved, but they cannot be loaded. -/
theorem load_save_odd :
    oddSettings.save .nothing = .ok (.file oddSettings.write) ∧
      load (.file oddSettings.write) = .error (.invalid (.unknownWeekday "Someday")) ∧
      load (.file oddSettings.write) ≠ .ok oddSettings := by
  have unknown : ¬ Weekday.IsName "Someday" := by
    rintro ⟨day, named⟩
    cases day <;> exact absurd named (by decide)
  have checked : oddSettings.week = .error (.unknownWeekday "Someday") :=
    oddSettings.week_spec.2 [] "Someday" [] rfl nofun unknown
  have refused : load (.file oddSettings.write) = .error (.invalid (.unknownWeekday "Someday")) := by
    simp only [load_write, checked, Except.map, Except.mapError]
  exact ⟨rfl, refused, by rw [refused]; nofun⟩

end Settings

end Workplan
