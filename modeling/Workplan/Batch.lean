/-
# Workplan.Batch — edits queued and made together

A batch queues additions, removals and clearings. Queueing checks only what needs no network: the
two tasks of a new link, and that the same link is not queued twice. Removing a link whose addition
is queued takes the addition back; clearing forgets the queue and starts over. Committing makes the
queued edits in order against the network as it then is. It is not all or nothing: an addition that
the network refuses is reported and skipped.
-/
import Workplan.Network.Edit

namespace Workplan

set_option autoImplicit false

/-- An edit that waits in a batch. -/
inductive Pending where
  | add (link : Link)
  | remove (key : LinkKey)
  | clear
  deriving DecidableEq

/-- Whether the edit adds a link with the given key. -/
def Pending.adds (key : LinkKey) : Pending → Bool
  | .add link => link.key = key
  | _ => false

/-- What came of a batch: how many edits were made, and the additions that were refused. -/
structure CommitReport where
  applied : Nat := 0
  failed : List (Link × LinkError) := []
  deriving DecidableEq

namespace CommitReport

def isClean (report : CommitReport) : Bool := report.failed.isEmpty

/-- What came of two batches, one after the other. -/
def append (first second : CommitReport) : CommitReport :=
  ⟨first.applied + second.applied, first.failed ++ second.failed⟩

end CommitReport

/-- Queued edits, the earliest first. -/
structure Batch where
  queue : List Pending := []
  deriving DecidableEq

namespace Batch

def size (batch : Batch) : Nat := batch.queue.length

def isEmpty (batch : Batch) : Bool := batch.queue.isEmpty

/-- Queues an addition. -/
def add (h : Hierarchy) (batch : Batch) (link : Link) : Except LinkError Batch :=
  match Network.checkPair h link.key with
  | .error refusal => .error refusal
  | .ok () =>
    if batch.queue.any (Pending.adds link.key) then .error (.alreadyExists link.key)
    else .ok ⟨batch.queue ++ [.add link]⟩

/-- Takes the latest queued addition of the link back, or else queues its removal. -/
def remove (batch : Batch) (key : LinkKey) : Batch :=
  if batch.queue.any (Pending.adds key) then
    ⟨(batch.queue.reverse.eraseP (Pending.adds key)).reverse⟩
  else ⟨batch.queue ++ [.remove key]⟩

/-- Forgets the queue and queues a clearing. -/
def clear (_ : Batch) : Batch := ⟨[.clear]⟩

/-- Makes one queued edit. -/
def perform (h : Hierarchy) (net : Network) : Pending → Edited Network CommitReport
  | .add link =>
    let added := net.add h link
    match added.answer with
    | .ok _ => ⟨{ applied := 1 }, added.state, added.changes⟩
    | .error refusal => ⟨{ failed := [(link, refusal)] }, added.state, added.changes⟩
  | .remove key =>
    let removed := net.remove key
    ⟨{ applied := 1 }, removed.state, removed.changes⟩
  | .clear => ⟨{ applied := 1 }, net.clear.state, net.clear.changes⟩

/-- Makes queued edits in order. -/
def performAll (h : Hierarchy) (net : Network) : List Pending → Edited Network CommitReport
  | [] => ⟨{}, net, []⟩
  | pending :: rest =>
    (perform h net pending).andThen fun report net =>
      (performAll h net rest).map report.append

/-- Makes the edits of the batch. -/
def commit (h : Hierarchy) (net : Network) (batch : Batch) : Edited Network CommitReport :=
  performAll h net batch.queue

end Batch

end Workplan
