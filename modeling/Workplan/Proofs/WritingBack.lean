/-
# Workplan.Proofs.WritingBack — the predecessors of a task, written and set again

Setting the predecessors of a task takes all its old ones away before it makes the new ones, and stops at
the first that is refused. What was written of the old ones is read back as it was (`Tokens`), and then
each is checked anew while those after it are missing. None is refused, for all of them together close no
loop (`Restoring`).

* `Fits.apply_asDependant` — the predecessors that were taken away can be made again, and then the network
  is what it was, with its index;
* `setPredecessors_formatPredecessors` — so in a project, whatever was asked of it before, writing back what
  is there changes nothing but that the schedule may be stale.
-/
import Workplan.Proofs.ProjectRuns
import Workplan.Proofs.Restoring
import Workplan.Proofs.Tokens

namespace Workplan

set_option autoImplicit false

/-- Links that a batch would make without a refusal are made from their tokens. -/
theorem Predecessor.apply_of_performAll {h : Hierarchy} {net : Network} {task : TaskId}
    {links : List Link} (ofTask : ∀ link ∈ links, link.dependant = task)
    (clean : (Batch.performAll h net (links.map .add)).answer.failed = []) :
    (apply h net task (links.map ofLink)).answer = .ok links ∧
      (apply h net task (links.map ofLink)).state =
        (Batch.performAll h net (links.map .add)).state := by
  induction links generalizing net with
  | nil => exact ⟨rfl, rfl⟩
  | cons link rest ih =>
    obtain ⟨ofFirst, ofRest⟩ := List.forall_mem_cons.mp ofTask
    rcases Network.add_cases h net link with ⟨admitted, added⟩ | ⟨refusal, -, refused⟩
    · obtain ⟨-, -, known, -, -⟩ := Network.validate_eq_ok_iff.mp admitted
      have token : (ofLink link).link task = link := ofFirst ▸ link_ofLink link
      simp only [List.map_cons, Batch.performAll, Batch.perform, added, Edited.andThen, Edited.map,
        CommitReport.append, List.nil_append] at clean
      obtain ⟨answer, state⟩ := ih ofRest clean
      have knows : h.knows (ofLink link).dependee = true := known
      simp only [List.map_cons, Batch.performAll, Batch.perform, apply, knows, token, added,
        Edited.andThen, Edited.map, answer, state]
      exact ⟨rfl, rfl⟩
    · simp [Batch.performAll, Batch.perform, refused, Edited.andThen, Edited.map,
        CommitReport.append] at clean

namespace Network

variable {h : Hierarchy} {net : Network}

theorem nodup_keys_asDependant (net : Network) (task : TaskId) :
    ((net.asDependant task).map Link.key).Nodup := by
  refine List.pairwise_map.mpr ((net.sorted_asDependant task).imp fun {a b} less same => ?_)
  have equal : a.dependee = b.dependee := congrArg LinkKey.dependee same
  exact Std.lt_irrefl (equal ▸ less)

/-- What is left when the predecessors of a task are taken away. -/
theorem mem_links_removeAll_asDependant {task : TaskId} {link : Link} :
    link ∈ (net.removeAll ((net.asDependant task).map Link.key)).state.links ↔
      link ∈ net.links ∧ link.dependant ≠ task := by
  have removed : (net.removeAll ((net.asDependant task).map Link.key)).state.find? link.key =
      if link.key ∈ (net.asDependant task).map Link.key then none else net.find? link.key :=
    congrFun (net.realizes_self.removeAll _).find? link.key
  rw [mem_links_iff, mem_links_iff, removed]
  constructor
  · intro found
    split at found
    · contradiction
    · rename_i spared
      refine ⟨found, fun ofTask => spared ?_⟩
      exact List.mem_map_of_mem (mem_asDependant.mpr ⟨found, ofTask⟩)
  · rintro ⟨found, other⟩
    rw [if_neg, found]
    intro taken
    obtain ⟨predecessor, member, same⟩ := List.mem_map.mp taken
    obtain ⟨-, ofTask⟩ := mem_asDependant.mp member
    exact other ((congrArg LinkKey.dependant same).symm.trans ofTask)

/-- The predecessors of a task that were taken away are made again, none of them refused, and the network
is what it was. -/
theorem Fits.apply_asDependant (fits : net.Fits h) (forest : h.IsForest)
    (checked : ∀ key, net.contains key = true → checkPair h key = .ok ()) (task : TaskId) :
    let removed := (net.removeAll ((net.asDependant task).map Link.key)).state
    let applied := Predecessor.apply h removed task ((net.asDependant task).map Predecessor.ofLink)
    applied.answer = .ok (net.asDependant task) ∧ applied.state = net := by
  intro removed applied
  have stored : ∀ link ∈ net.asDependant task, link ∈ net.links ∧ link.dependant = task := by
    intro link member
    obtain ⟨found, ofTask⟩ := mem_asDependant.mp member
    exact ⟨mem_links_iff.mpr found, ofTask⟩
  have fewer : ∀ link ∈ removed.links, link ∈ net.links := fun link member =>
    (mem_links_removeAll_asDependant.mp member).1
  have missing : ∀ link ∈ net.asDependant task, removed.contains link.key = false := by
    intro link member
    refine Bool.eq_false_iff.mpr fun there => ?_
    obtain ⟨kept, inside, same⟩ := contains_iff.mp there
    refine (mem_links_removeAll_asDependant.mp inside).2 ?_
    exact (congrArg LinkKey.dependant same).trans (stored link member).2
  obtain ⟨answer, links⟩ := fits.performAll_adds forest checked (net.nodup_keys_asDependant task)
    (fun link member => (stored link member).1) removed fewer missing
  have clean : (Batch.performAll h removed ((net.asDependant task).map .add)).answer.failed = [] := by
    rw [answer]
  obtain ⟨made, state⟩ :=
    Predecessor.apply_of_performAll (fun link member => (stored link member).2) clean
  refine ⟨made, ext_mem (fun link => ?_) ?_⟩
  · rw [state, links, mem_links_removeAll_asDependant, mem_asDependant, ← mem_links_iff]
    by_cases ofTask : link.dependant = task <;> simp [ofTask]
  · rw [state]
    have begun := net.realizes_self.removeAll ((net.asDependant task).map Link.key)
    exact (begun.performAll _).defaults

end Network

theorem Coherent.checkPair {o : Outline} {net : Network} (coherent : Coherent o net) (key : LinkKey)
    (there : net.contains key = true) : Network.checkPair o.hierarchy key = .ok () :=
  (unrelated_iff coherent.forest).mpr (apart_of_acyclic coherent.acyclic there)

namespace Project

/-- What was written of the predecessors of a task is read as what it was written of. -/
theorem parseAll_formatPredecessors (p : Project) (task : TaskId) {separator : List Char}
    (visible : separator ≠ [])
    (apart : ∀ c ∈ separator, c.isAlphanum = false ∧ c ∉ ['-', '=', '+', '>']) :
    Predecessor.parseAll (p.formatPredecessors task separator) separator =
      .ok ((p.network.asDependant task).map Predecessor.ofLink) := by
  obtain ⟨c, rest, rfl⟩ := List.exists_cons_of_ne_nil visible
  obtain ⟨notAlphanum, notMark⟩ := apart c List.mem_cons_self
  have free : ¬ Predecessor.MayHold c := by
    rintro (alphanum | rfl | rfl | rfl)
    · rw [notAlphanum] at alphanum
      contradiction
    · simp at notMark
    · simp at notMark
    · simp at notMark
  have read := Predecessor.parseAll_intercalate
    ((p.network.asDependant task).map Predecessor.ofLink) free rest
  rwa [List.map_map] at read

theorem setPredecessors_of_isCoherent {p : Project} (coherent : p.IsCoherent) (task : TaskId)
    {separator : List Char} (visible : separator ≠ [])
    (apart : ∀ c ∈ separator, c.isAlphanum = false ∧ c ∉ ['-', '=', '+', '>']) :
    let edited := p.setPredecessors task (p.formatPredecessors task separator) separator
    edited.answer = .ok (p.network.asDependant task) ∧
      edited.state = { p with stale := edited.state.stale } := by
  intro edited
  obtain ⟨answer, state⟩ := Network.Fits.apply_asDependant (h := p.hierarchy) coherent.plan.fits
    coherent.plan.forest coherent.plan.checkPair task
  simp only [edited, setPredecessors, parseAll_formatPredecessors p task visible apart, editLinks,
    Edited.map, Edited.andThen]
  rw [answer, state]
  exact ⟨rfl, rfl⟩

/-- Whatever was asked of a project that started empty: writing back the predecessors of a task, with any
separator that holds no letter, digit or mark of a token, succeeds and makes the same links again. Nothing
changes in the project but that its schedule may be stale. -/
theorem setPredecessors_formatPredecessors {settings : Settings} {start : Project}
    (opened : ofSettings settings = .ok start) (edits : List Edit) (task : TaskId)
    {separator : List Char} (visible : separator ≠ [])
    (apart : ∀ c ∈ separator, c.isAlphanum = false ∧ c ∉ ['-', '=', '+', '>']) :
    let p := start.run edits
    let edited := p.setPredecessors task (p.formatPredecessors task separator) separator
    edited.answer = .ok (p.network.asDependant task) ∧
      edited.state = { p with stale := edited.state.stale } :=
  setPredecessors_of_isCoherent (isCoherent_run (isCoherent_ofSettings opened) edits) task visible apart

/-- A container waits for a task with the least lag there is, and its inner task with the greatest. -/
def Edit.written : List Edit :=
  [.add (Sample.task Sample.outer Sample.first Sample.last),
    .add (Sample.task Sample.other Sample.first Sample.last),
    .links (.add Sample.far),
    .nest Sample.outer (Sample.task Sample.inner Sample.first Sample.last),
    .links (.add Sample.near)]

theorem setPredecessors_formatPredecessors_far : ∃ start, ofSettings { weekends := [] } = .ok start ∧
    let p := start.run Edit.written
    let text := p.formatPredecessors Sample.outer [';', ' ']
    text = "3-FF>P-9223372036854775808D".toList ∧
    (p.setPredecessors Sample.outer text [';', ' ']).answer = .ok [Sample.far] ∧
    (p.setPredecessors Sample.outer text [';', ' ']).state.network = p.network := by
  obtain ⟨start, opened⟩ : ∃ start, ofSettings { weekends := [] } = .ok start := ⟨_, rfl⟩
  obtain ⟨answer, state⟩ := setPredecessors_formatPredecessors opened Edit.written Sample.outer
    (show [';', ' '] ≠ [] from List.cons_ne_nil _ _) (by simp)
  have network := congrArg Project.network state
  refine ⟨start, opened, ?_, answer.trans ?_, network⟩
  · cases opened
    decide
  · cases opened
    decide

end Project

end Workplan
