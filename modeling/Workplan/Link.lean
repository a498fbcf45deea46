/-
# Workplan.Link — one task waiting for another

A link is known by its key. What it asks, the relation, how strictly it is held and the lag in
working days, may change while it stays the same link.
-/
import Workplan.Link.Key
import Workplan.Collision

namespace Workplan

set_option autoImplicit false

/-- How strictly a link is held: `rubber` only keeps the dependant from starting too early, `strong`
also pulls it back to the boundary. -/
inductive Hardness where
  | rubber | strong
  deriving DecidableEq, Repr

namespace Hardness

instance : Inhabited Hardness := ⟨strong⟩

def name : Hardness → String
  | rubber => "Rubber"
  | strong => "Strong"

instance : ToString Hardness := ⟨name⟩

def ofName? (text : List Char) : Option Hardness :=
  [rubber, strong].find? fun hardness => hardness.name.toList = text

/-- Reads a name; blanks around it do not count. -/
def parse (text : List Char) : Except TermError Hardness :=
  let trimmed := Text.trim text
  match ofName? trimmed with
  | some hardness => .ok hardness
  | none => .error (.notHardness (String.ofList trimmed))

theorem parse_name (hardness : Hardness) : parse hardness.name.toList = .ok hardness := by
  cases hardness <;> rfl

end Hardness

/-- The dependant waits for the dependee as the relation, the hardness and the lag say. -/
structure Link where
  key : LinkKey
  relation : Relation := .finishStart
  hardness : Hardness := .strong
  lag : Lag := .zero
  deriving DecidableEq

namespace Link

def dependant (link : Link) : TaskId := link.key.dependant

def dependee (link : Link) : TaskId := link.key.dependee

instance : ToString Link :=
  ⟨fun link => s!"{link.key} {link.relation} lag={link.lag} {link.hardness}"⟩

/-- Two links are the same link if they have the same ends, whatever they ask. -/
def sameAs (a b : Link) : Bool := a.key = b.key

/-- The links without those that are the same as an earlier one. -/
def distinct : List Link → List Link
  | [] => []
  | link :: rest => link :: (distinct rest).filter fun other => !link.sameAs other

/-- The same demands on the same dependee, made of another dependant. -/
def retarget (link : Link) (dependant : TaskId) : Link :=
  { link with key := ⟨dependant, link.dependee⟩ }

end Link

/-- Where the two tasks of a link stand, and the two dates that it compares. -/
structure Binding where
  dependee : Span
  dependant : Span
  dependeeDate : Date
  dependantDate : Date
  deriving DecidableEq

namespace Link

/-- The binding of a link, if both tasks have a place in time. -/
def binding? (link : Link) (span? : TaskId → Option Span) : Option Binding := do
  let dependee ← span? link.dependee
  let dependant ← span? link.dependant
  return ⟨dependee, dependant, link.relation.dependeeDate dependee,
    link.relation.dependantDate dependant⟩

/-- Tests where the dependant stands. -/
def forward? (link : Link) (span? : TaskId → Option Span) (cal : Calendar) : Option Collision :=
  (link.binding? span?).map fun binding =>
    link.relation.forward binding.dependee binding.dependant link.lag.days cal

/-- Tests where the dependee ends against a start of the dependant. -/
def backward? (link : Link) (candidate : Date) (span? : TaskId → Option Span) (cal : Calendar) :
    Option Collision :=
  (link.binding? span?).map fun binding =>
    link.relation.backward binding.dependee binding.dependant link.lag.days candidate cal

end Link

end Workplan
