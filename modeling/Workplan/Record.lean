/-
# Workplan.Record — tasks and links as stored

A stored link names its two tasks, its relation by code or mnemonic, its hardness and its lag. A
whole network is stored as the records of its links by key and read back as one batch: a record
that cannot be read stops everything before any link is made, a link that is refused is reported.

* `link_ofLink`, `link_readable` — a record, of either kind, tells the link it was made of.
-/
import Workplan.Batch
import Workplan.Date.Text
import Workplan.Document
import Workplan.Task

namespace Workplan

set_option autoImplicit false

/-- A link as it is stored. -/
structure Record where
  dependant : TaskId
  dependee : TaskId
  relation : String
  hardness : String
  lag : Lag := .zero
  deriving DecidableEq

namespace Record

/-- The record of a link with the code of its relation. -/
def ofLink (link : Link) : Record :=
  { dependant := link.dependant, dependee := link.dependee, relation := toString link.relation.code,
    hardness := link.hardness.name, lag := link.lag }

/-- The record of a link with the mnemonic of its relation. -/
def readable (link : Link) : Record :=
  { ofLink link with relation := link.relation.mnemonic }

/-- The link that a record tells. -/
def link (record : Record) : Except TermError Link :=
  match Relation.parse record.relation.toList with
  | .error reason => .error reason
  | .ok relation =>
    match Hardness.parse record.hardness.toList with
    | .error reason => .error reason
    | .ok hardness =>
      .ok { key := ⟨record.dependant, record.dependee⟩, relation, hardness, lag := record.lag }

theorem link_ofLink (stored : Link) : (ofLink stored).link = .ok stored := by
  simp only [link, ofLink, toString, Nat.repr_eq_ofList_toDigits, String.toList_ofList,
    Relation.parse_code, Hardness.parse_name]
  rfl

theorem link_readable (stored : Link) : (readable stored).link = .ok stored := by
  simp only [link, readable, ofLink, Relation.parse_mnemonic, Hardness.parse_name]
  rfl

/-- The records of a network, by key. -/
def ofNetwork (net : Network) : List Record := net.toList.map ofLink

/-- Queues links in order; the answer also lists those that the batch refused. -/
def queueAll (h : Hierarchy) : List Link → Batch → Batch × List (Link × LinkError)
  | [], batch => (batch, [])
  | link :: rest, batch =>
    match batch.add h link with
    | .ok grown => queueAll h rest grown
    | .error refusal =>
      let (last, refused) := queueAll h rest batch
      (last, (link, refusal) :: refused)

/-- Makes the links that records tell, as one batch. -/
def restore (h : Hierarchy) (net : Network) (records : List Record) :
    Edited Network (Except TermError CommitReport) :=
  match records.mapM link with
  | .error reason => ⟨.error reason, net, []⟩
  | .ok links =>
    let (batch, refused) := queueAll h links {}
    (batch.commit h net).map fun report => .ok (report.append { failed := refused })

end Record

/-! ## Documents -/

def TaskId.ofDocument? (document : Document) : Option TaskId := do
  let number ← document.integer?
  if number < 0 then none else TaskId.ofNat? number.toNat

def Lag.ofDocument? (document : Document) : Option Lag :=
  document.integer?.bind Lag.ofInt?

def Date.ofDocument? (document : Document) : Option Date :=
  document.text?.bind fun text => Date.read? text.toList

/-- A record, if it has all fields but the lag and no place in a list is left over. -/
def Record.ofDocument? (document : Document) : Option Record :=
  if !document.isRecord 5 then none
  else do
    return {
      dependant := ← (document.field? "dependant" 0).bind TaskId.ofDocument?
      dependee := ← (document.field? "dependee" 1).bind TaskId.ofDocument?
      relation := ← (document.field? "type" 2).bind Document.text?
      hardness := ← (document.field? "hardness" 3).bind Document.text?
      lag := ← Document.orElse? .zero Lag.ofDocument? (document.field? "difference" 4) }

def Record.toDocument (record : Record) : Document :=
  .table [("dependant", .integer record.dependant.number), ("dependee", .integer record.dependee.number),
    ("type", .text record.relation), ("hardness", .text record.hardness),
    ("difference", .integer record.lag.days)]

/-- A task, if it has a number, a name and two dates, in any order of time. -/
def Task.ofDocument? (document : Document) : Option Task :=
  if !document.isRecord 6 then none
  else do
    return {
      id := ← (document.field? "id" 0).bind TaskId.ofDocument?
      name := ← (document.field? "name" 1).bind Document.text?
      start := ← (document.field? "start" 2).bind Date.ofDocument?
      finish := ← (document.field? "end" 3).bind Date.ofDocument?
      milestone := ← Document.orElse? false Document.bool? (document.field? "milestone" 4)
      earliestStart := ←
        Document.orElse? none (Document.nullable? Date.ofDocument?)
          (document.field? "earliest_start" 5) }

/-- The stored form of a task; it names an earliest start only if there is one. -/
def Task.toDocument (task : Task) : Document :=
  .table ([("id", .integer task.id.number), ("name", .text task.name),
    ("start", .text (toString task.start)), ("end", .text (toString task.finish)),
    ("milestone", .bool task.milestone)] ++
    task.earliestStart.toList.map fun date => ("earliest_start", .text (toString date)))

end Workplan
