/-
# Workplan.Proofs.Admission — which links a network takes

* `validate_eq_ok_iff` — the checks on a new link, all at once;
* `add_cases` — what an addition leaves behind;
* `Fits.insertLink` — a link without a loop keeps the links on the hierarchy and free of cycles;
* `admission_spec` — on a coherent plan the search for loops and the order of the tasks agree, and
  a link is taken exactly when it keeps the plan coherent.
-/
import Mathlib.Tactic.Tauto
import Workplan.Network.Edit
import Workplan.Proofs.LoopSearch
import Workplan.Proofs.TaskEdits

namespace Workplan

set_option autoImplicit false

namespace Network

variable {h : Hierarchy} {net : Network}

theorem checkPair_eq_ok_iff {key : LinkKey} :
    checkPair h key = .ok () ↔
      key.dependant ≠ key.dependee ∧ h.related key.dependant key.dependee = false := by
  unfold checkPair
  by_cases same : key.dependant = key.dependee
  · simp [same]
  · cases h.related key.dependant key.dependee <;> simp [same]

theorem validate_eq_ok_iff {key : LinkKey} :
    net.validate h key = .ok () ↔ net.contains key = false ∧ h.knows key.dependant = true ∧
      h.knows key.dependee = true ∧ checkPair h key = .ok () ∧ net.isLooping h key = false := by
  unfold validate
  cases net.contains key
  · cases h.knows key.dependant
    · simp
    · cases h.knows key.dependee
      · simp
      · cases checkPair h key <;> cases net.isLooping h key <;> simp
  · simp

theorem add_of_admitted {link : Link} (admitted : net.validate h link.key = .ok ()) :
    net.add h link = ⟨.ok link, net.insertLink link, [.added link]⟩ := by
  rw [add, admitted]

theorem add_of_refused {link : Link} {refusal : LinkError}
    (refused : net.validate h link.key = .error refusal) :
    net.add h link = ⟨.error refusal, net, []⟩ := by
  rw [add, refused]

/-- An addition is either admitted or leaves everything as it was. -/
theorem add_cases (h : Hierarchy) (net : Network) (link : Link) :
    (net.validate h link.key = .ok () ∧
      net.add h link = ⟨.ok link, net.insertLink link, [.added link]⟩) ∨
    ∃ refusal, net.validate h link.key = .error refusal ∧
      net.add h link = ⟨.error refusal, net, []⟩ := by
  cases checked : net.validate h link.key with
  | ok => exact .inl ⟨rfl, add_of_admitted checked⟩
  | error refusal => exact .inr ⟨refusal, rfl, add_of_refused checked⟩

/-- Nothing comes to be before itself by a link for which the walk finds no loop. -/
theorem acyclic_insertLink (forest : h.IsForest) (acyclic : Acyclic (Precedes h net)) {link : Link}
    (noLoop : net.isLooping h link.key = false) : Acyclic (Precedes h (net.insertLink link)) := by
  rw [acyclic_insertLink_iff acyclic]
  intro reached
  have loop := (isLooping_iff forest).mpr reached
  rw [noLoop] at loop
  contradiction

/-- The links lie on the hierarchy, and by them nothing comes before itself. -/
structure Fits (net : Network) (h : Hierarchy) : Prop where
  liesOn : net.LiesOn h
  acyclic : Acyclic (Precedes h net)

/-- A link may join the others if its tasks are known and the walk finds no loop. -/
theorem Fits.insertLink (fits : net.Fits h) (forest : h.IsForest) {link : Link}
    (dependant : h.knows link.dependant = true) (dependee : h.knows link.dependee = true)
    (noLoop : net.isLooping h link.key = false) : (net.insertLink link).Fits h where
  liesOn := fits.liesOn.insertLink dependant dependee
  acyclic := acyclic_insertLink forest fits.acyclic noLoop

end Network

section Coherent

variable {o : Outline} {net : Network}

theorem Coherent.fits (coherent : Coherent o net) : net.Fits o.hierarchy :=
  ⟨coherent.liesOn, coherent.acyclic⟩

theorem Coherent.of_fits {edited : Network} (coherent : Coherent o net)
    (fits : edited.Fits o.hierarchy) : Coherent o edited :=
  ⟨coherent.forest, fits.liesOn, fits.acyclic⟩

theorem Coherent.insertLink (coherent : Coherent o net) {link : Link}
    (dependant : o.contains link.dependant = true) (dependee : o.contains link.dependee = true)
    (noLoop : net.isLooping o.hierarchy link.key = false) : Coherent o (net.insertLink link) :=
  coherent.of_fits (coherent.fits.insertLink coherent.forest dependant dependee noLoop)

theorem Coherent.add (coherent : Coherent o net) (link : Link) :
    Coherent o (net.add o.hierarchy link).state := by
  rcases Network.add_cases o.hierarchy net link with ⟨admitted, added⟩ | ⟨_, -, refused⟩
  · rw [added]
    obtain ⟨-, dependant, dependee, -, noLoop⟩ := Network.validate_eq_ok_iff.mp admitted
    exact coherent.insertLink dependant dependee noLoop
  · rw [refused]
    exact coherent

theorem isLooping_iff_no_order (coherent : Coherent o net) {link : Link}
    (dependant : o.contains link.dependant = true) (dependee : o.contains link.dependee = true) :
    net.isLooping o.hierarchy link.key = true ↔
      ¬ ∃ order, (Flow.ofPlan o (net.insertLink link)).order = .ok order := by
  have lies := coherent.liesOn.insertLink dependant dependee
  rw [exists_order_iff_acyclic coherent.forest lies, acyclic_insertLink_iff coherent.acyclic,
    Classical.not_not]
  exact Network.isLooping_iff coherent.forest

theorem unrelated_iff (forest : o.hierarchy.IsForest) {key : LinkKey} :
    Network.checkPair o.hierarchy key = .ok () ↔ key.dependant ≠ key.dependee ∧
      ¬ o.hierarchy.Inside key.dependant key.dependee ∧
      ¬ o.hierarchy.Inside key.dependee key.dependant := by
  rw [Network.checkPair_eq_ok_iff, ← Bool.not_eq_true, forest.related_iff]
  tauto

/-- On a coherent plan, and for tasks it knows, the search for loops tells whether the dependee is
reached from the dependant or from a task in it, which is whether the tasks could no longer be put
in order. A link is taken if and only if it is new, between two known tasks of which neither is or
contains the other, and nothing would come before itself; a refusal changes nothing and tells
nothing. -/
theorem admission_spec (coherent : Coherent o net) (link : Link) :
    (o.contains link.dependant = true → o.contains link.dependee = true →
      (net.isLooping o.hierarchy link.key = true ↔
        ReachedFrom o.hierarchy net link.dependant link.dependee) ∧
      (net.isLooping o.hierarchy link.key = true ↔
        ¬ ∃ order, (Flow.ofPlan o (net.insertLink link)).order = .ok order)) ∧
    ((∃ added, (net.add o.hierarchy link).answer = .ok added) ↔
      net.contains link.key = false ∧
        o.contains link.dependant = true ∧ o.contains link.dependee = true ∧
        link.dependant ≠ link.dependee ∧
        ¬ o.hierarchy.Inside link.dependant link.dependee ∧
        ¬ o.hierarchy.Inside link.dependee link.dependant ∧
        Acyclic (Precedes o.hierarchy (net.insertLink link))) ∧
    ∀ refusal, (net.add o.hierarchy link).answer = .error refusal →
      (net.add o.hierarchy link).state = net ∧ (net.add o.hierarchy link).changes = [] := by
  refine ⟨fun dependant dependee => ⟨?_, ?_⟩, ?_, fun refusal => Network.add_refused⟩
  · exact Network.isLooping_iff coherent.forest
  · exact isLooping_iff_no_order coherent dependant dependee
  · have checks : (∃ added, (net.add o.hierarchy link).answer = .ok added) ↔
        net.validate o.hierarchy link.key = .ok () := by
      rcases Network.add_cases o.hierarchy net link with ⟨admitted, added⟩ | ⟨_, refused, kept⟩
      · simp [admitted, added]
      · simp [refused, kept]
    have noLoop : net.isLooping o.hierarchy link.key = false ↔
        Acyclic (Precedes o.hierarchy (net.insertLink link)) := by
      rw [acyclic_insertLink_iff coherent.acyclic, ← Bool.not_eq_true,
        Network.isLooping_iff coherent.forest]
      rfl
    rw [checks, Network.validate_eq_ok_iff, unrelated_iff coherent.forest, noLoop]
    simp only [and_assoc]
    rfl

end Coherent

namespace Sample

/-! ## A container that waits for a task -/

def outer : TaskId := { number := 1 }

def inner : TaskId := { number := 2 }

def other : TaskId := { number := 3 }

def innermost : TaskId := { number := 5 }

def task (id : TaskId) (start finish : Date) : Task := { id, name := "", start, finish }

/-- A date by its number. -/
def day (count : Int) : Date := (default : Date).addDays count

def first : Date := { day := 2 }

def last : Date := { day := 4 }

/-- The inner task lies in the outer one, the other stands beside them. -/
def outline : Except OutlineError Outline := do
  let o ← Outline.empty.add (task outer first last)
  let o ← o.nest outer (task inner first last)
  o.add (task other first last)

def network : Network := (Network.empty {}).insertLink { key := ⟨outer, other⟩ }

theorem coherent_outline {o : Outline} (built : outline = .ok o) :
    Coherent o network ∧ o.Ordered := by
  unfold outline at built
  obtain ⟨_, top, rest⟩ := exists_ok_of_bind built
  obtain ⟨_, below, beside⟩ := exists_ok_of_bind rest
  have coherent := (((coherent_empty {}).add_task top).nest below).add_task beside
  have ordered := Outline.ordered_nest (Outline.ordered_add Outline.ordered_empty top) below
  refine ⟨coherent.insertLink ?_ ?_ ?_, Outline.ordered_add ordered beside⟩ <;>
    cases built <;> decide

end Sample

/-- The link back from the other task to the inner one closes a loop that only shows inside the
container. -/
theorem admission_spec_in_container : ∃ o, Sample.outline = .ok o ∧
    ReachedFrom o.hierarchy Sample.network Sample.other Sample.inner ∧
    ¬ ∃ added, (Sample.network.add o.hierarchy { key := ⟨Sample.other, Sample.inner⟩ }).answer =
      .ok added := by
  obtain ⟨o, built⟩ : ∃ o, Sample.outline = .ok o := ⟨_, rfl⟩
  obtain ⟨coherent, -⟩ := Sample.coherent_outline built
  obtain ⟨search, admission, -⟩ :=
    admission_spec coherent { key := ⟨Sample.other, Sample.inner⟩ }
  cases built
  have reached := (search (by decide) (by decide)).1.mp (by decide)
  refine ⟨_, rfl, reached, fun taken => ?_⟩
  obtain ⟨-, -, -, -, -, -, acyclic⟩ := admission.mp taken
  exact (acyclic_insertLink_iff coherent.acyclic).mp acyclic reached

end Workplan
