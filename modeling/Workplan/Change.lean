/-
# Workplan.Change — what happens to links, told one by one

Every edit of a network tells the changes it made, in order; `Edited` is an edit's answer with
the new state and that list. Listeners fold changes into a state of their own, each change reaching
all listeners in the order of their registration.
-/
import Workplan.Link

namespace Workplan

set_option autoImplicit false

inductive Change where
  | added (link : Link)
  | removed (link : Link)
  | changed (link : Link)
  deriving DecidableEq

namespace Change

/-- The link that the change is about, as it is after an addition or a change and as it was before
a removal. -/
def link : Change → Link
  | added link | removed link | changed link => link

instance : ToString Change :=
  ⟨fun
    | added link => s!"added {link}"
    | removed link => s!"removed {link}"
    | changed link => s!"changed {link}"⟩

end Change

/-- What an edit leaves: its answer, the state after it and the changes on the way. -/
structure Edited (σ α : Type) where
  answer : α
  state : σ
  changes : List Change := []

namespace Edited

def map {σ α β : Type} (f : α → β) (edited : Edited σ α) : Edited σ β :=
  ⟨f edited.answer, edited.state, edited.changes⟩

/-- One edit after another, the second told the answer of the first. -/
def andThen {σ α β : Type} (first : Edited σ α) (second : α → σ → Edited σ β) : Edited σ β :=
  let last := second first.answer first.state
  ⟨last.answer, last.state, first.changes ++ last.changes⟩

end Edited

/-- Something that takes note of changes in a state. -/
structure Listener (σ : Type) where
  hear : σ → Change → σ

/-- The listeners in the order of their registration. -/
structure Dispatcher (σ : Type) where
  listeners : List (Listener σ) := []

namespace Dispatcher

variable {σ : Type}

def add (d : Dispatcher σ) (listener : Listener σ) : Dispatcher σ :=
  ⟨d.listeners ++ [listener]⟩

def count (d : Dispatcher σ) : Nat := d.listeners.length

/-- Tells a change to every listener. -/
def fire (d : Dispatcher σ) (state : σ) (change : Change) : σ :=
  d.listeners.foldl (fun state listener => listener.hear state change) state

/-- Tells changes one after another. -/
def fireAll (d : Dispatcher σ) (state : σ) (changes : List Change) : σ :=
  changes.foldl d.fire state

/-- A short description for people. -/
def describe (d : Dispatcher σ) : String :=
  "EventDispatcher \x7b listeners: " ++ toString d.count ++ " \x7d"

theorem fire_add (d : Dispatcher σ) (listener : Listener σ) (state : σ) (change : Change) :
    (d.add listener).fire state change = listener.hear (d.fire state change) change := by
  simp [fire, add]

end Dispatcher

/-- The changes heard so far. -/
abbrev ChangeLog := List Change

namespace Listener

/-- Writes every change down, the latest last. -/
def log : Listener ChangeLog := ⟨fun heard change => heard ++ [change]⟩

/-- Hears nothing. -/
def silent {σ : Type} : Listener σ := ⟨fun state _ => state⟩

/-- Listens on a part of a larger state. -/
def on {σ τ : Type} (listener : Listener τ) (get : σ → τ) (set : τ → σ → σ) : Listener σ :=
  ⟨fun state change => set (listener.hear (get state) change) state⟩

theorem fireAll_log (heard changes : ChangeLog) :
    (Dispatcher.add {} log).fireAll heard changes = heard ++ changes := by
  induction changes generalizing heard with
  | nil => simp [Dispatcher.fireAll]
  | cons change rest ih =>
    have step := ih (heard ++ [change])
    simpa [Dispatcher.fireAll, Dispatcher.fire, Dispatcher.add, log] using step

end Listener

end Workplan
