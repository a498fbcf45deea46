/-
# Workplan.Relation — how the dates of two tasks are tied

A relation ties one boundary of the dependee, its start or its finish, to one boundary of the
dependant. It is stored as a two-letter mnemonic, dependee first, or as a number from 1 to 4.

* `parse_mnemonic`, `parse_code` — both stored forms read back where either is allowed.
-/
import Workplan.Task
import Workplan.Text.Blank
import Workplan.Text.Numeral

namespace Workplan

set_option autoImplicit false

/-- Why a stored word is none of the expected ones. -/
inductive TermError where
  | notCode (text : String)
  | notMnemonic (text : String)
  | notHardness (text : String)
  deriving DecidableEq

def TermError.message : TermError → String
  | notCode text => s!"Invalid constraint code '{text}': expected 1..4"
  | notMnemonic text => s!"Invalid constraint mnemonic '{text}': expected SS, FS, FF or SF"
  | notHardness text => s!"Invalid hardness '{text}': expected Strong or Rubber"

/-- Which boundary of the dependee, and which of the dependant, a link ties together. -/
inductive Relation where
  | startStart | finishStart | finishFinish | startFinish
  deriving DecidableEq, Repr, Inhabited

namespace Relation

/-- The relations in the order of their codes. -/
def all : List Relation := [startStart, finishStart, finishFinish, startFinish]

def mnemonic : Relation → String
  | startStart => "SS"
  | finishStart => "FS"
  | finishFinish => "FF"
  | startFinish => "SF"

instance : ToString Relation := ⟨mnemonic⟩

def code : Relation → Nat
  | startStart => 1
  | finishStart => 2
  | finishFinish => 3
  | startFinish => 4

def ofMnemonic? (text : List Char) : Option Relation :=
  all.find? fun relation => relation.mnemonic.toList = text

def ofCode? (n : Nat) : Option Relation :=
  all.find? fun relation => relation.code = n

/-- Reads a mnemonic as it stands. -/
def parseMnemonic (text : List Char) : Except TermError Relation :=
  match ofMnemonic? text with
  | some relation => .ok relation
  | none => .error (.notMnemonic (String.ofList text))

/-- Reads a code; blanks around it do not count. -/
def parseCode (text : List Char) : Except TermError Relation :=
  match (Text.natural? (Text.trim text)).bind ofCode? with
  | some relation => .ok relation
  | none => .error (.notCode (String.ofList text))

/-- Reads a mnemonic or else, if it is all digits, a code; blanks around it do not count. -/
def parse (text : List Char) : Except TermError Relation :=
  let trimmed := Text.trim text
  match ofMnemonic? trimmed with
  | some relation => .ok relation
  | none =>
    if trimmed ≠ [] ∧ trimmed.all Char.isDigit then parseCode trimmed
    else .error (.notMnemonic (String.ofList trimmed))

theorem ofMnemonic?_mnemonic (relation : Relation) :
    ofMnemonic? relation.mnemonic.toList = some relation := by
  cases relation <;> decide

theorem parseMnemonic_mnemonic (relation : Relation) :
    parseMnemonic relation.mnemonic.toList = .ok relation := by
  rw [parseMnemonic, ofMnemonic?_mnemonic]

theorem ofCode?_code (relation : Relation) : ofCode? relation.code = some relation := by
  cases relation <;> decide

theorem parse_mnemonic (relation : Relation) : parse relation.mnemonic.toList = .ok relation := by
  cases relation <;> rfl

theorem parse_code (relation : Relation) :
    parse (Nat.toDigits 10 relation.code) = .ok relation := by
  cases relation <;> rfl

/-- The dependee's start, not its finish, is the boundary that counts. -/
def usesDependeeStart : Relation → Bool
  | startStart | startFinish => true
  | finishStart | finishFinish => false

/-- The dependant's finish, not its start, is the boundary that is held back. -/
def bindsDependantFinish : Relation → Bool
  | finishFinish | startFinish => true
  | startStart | finishStart => false

/-- The date of the dependee that counts. -/
def dependeeDate (relation : Relation) (dependee : Span) : Date :=
  if relation.usesDependeeStart then dependee.start else dependee.finish

/-- The date of the dependant that is held back. -/
def dependantDate (relation : Relation) (dependant : Span) : Date :=
  if relation.bindsDependantFinish then dependant.finish else dependant.start

end Relation

end Workplan
