/-
# Workplan.Proofs.FailedPredecessors — predecessors that cannot be set

Setting the predecessors of a task reads the whole text first, and a text that cannot be read changes
nothing. Then the old predecessors are taken away and the new ones made one after another, up to the first
token that names an unknown task or whose link is refused. Nothing is put back: the links that the tokens
before it describe stay, and the old ones are gone.

* `Predecessor.Stops` — why a token makes no link in the network as it then is;
* `Predecessor.apply_eq_error` — the token at which the making stops, and what was made before it;
* `Network.Replaces` — what is left where links took the place of the old ones, and when it is what was
  there;
* `failed_predecessors_spec` — so only links of the task are lost, and none exactly if the tokens before
  that one tell them all again;
* `failed_predecessors_lost` — an unknown task alone takes a link away.
-/
import Workplan.Proofs.LinkLog
import Workplan.Proofs.WritingBack

namespace Workplan

set_option autoImplicit false

namespace Predecessor

/-- Why the token makes no link of the task in the network. -/
inductive Stops (h : Hierarchy) (net : Network) (task : TaskId) (token : Predecessor) :
    PredecessorError → Prop where
  | unknownTask : h.knows token.dependee = false → Stops h net task token (.unknownTask token.dependee)
  | refused {refusal : LinkError} : h.knows token.dependee = true →
      net.validate h ⟨task, token.dependee⟩ = .error refusal →
      Stops h net task token (.refused task token.dependee refusal)

theorem Stops.dependee_eq {h : Hierarchy} {net : Network} {task dependant dependee : TaskId}
    {token : Predecessor} {refusal : LinkError}
    (stops : token.Stops h net task (.refused dependant dependee refusal)) :
    token.dependee = dependee := by
  cases stops
  rfl

/-- The first token stops everything, or its link is made before those of the others. -/
theorem apply_cons (h : Hierarchy) (net : Network) (task : TaskId) (token : Predecessor)
    (rest : List Predecessor) :
    (∃ reason, token.Stops h net task reason ∧
        apply h net task (token :: rest) = ⟨.error reason, net, []⟩) ∨
      let later := apply h (net.insertLink (token.link task)) task rest
      apply h net task (token :: rest) = ⟨later.answer.map (token.link task :: ·), later.state,
        .added (token.link task) :: later.changes⟩ := by
  cases known : h.knows token.dependee with
  | false => exact .inl ⟨_, .unknownTask known, by simp [apply, known]⟩
  | true =>
    rcases Network.add_cases h net (token.link task) with ⟨-, added⟩ | ⟨refusal, checked, refused⟩
    · exact .inr (by simp [apply, known, added, Edited.andThen, Edited.map])
    · exact .inl ⟨_, .refused known checked, by simp [apply, known, refused, Edited.andThen]⟩

/-- Tokens of which one stops everything: the links of those before it are made. -/
theorem apply_eq_error {h : Hierarchy} {net : Network} {task : TaskId} {tokens : List Predecessor}
    {reason : PredecessorError} (failed : (apply h net task tokens).answer = .error reason) :
    ∃ made token rest, tokens = made ++ token :: rest ∧
      (apply h net task tokens).changes = (made.map (link · task)).map .added ∧
      token.Stops h (apply h net task tokens).state task reason := by
  induction tokens generalizing net with
  | nil => contradiction
  | cons token rest ih =>
    rcases apply_cons h net task token rest with ⟨why, stops, stopped⟩ | goesOn
    · rw [stopped] at failed ⊢
      obtain rfl := Except.error.inj failed
      exact ⟨[], token, rest, rfl, rfl, stops⟩
    · rw [goesOn] at failed ⊢
      obtain ⟨made, last, unread, rfl, changes, stops⟩ := ih (error_of_map failed)
      exact ⟨token :: made, last, unread, rfl, by simp [changes], stops⟩

end Predecessor

namespace Network

variable {net after : Network} {task : TaskId} {made : List Link}

/-- Links of a task take the place of those that the network had of it. -/
structure Replaces (net : Network) (task : TaskId) (made : List Link) (after : Network) : Prop where
  mem_links : ∀ link, link ∈ after.links ↔
    link ∈ net.links ∧ link.dependant ≠ task ∨ link ∈ made
  ofTask : ∀ link ∈ made, link.dependant = task
  distinct : (made.map Link.key).Nodup
  defaults : after.defaults = net.defaults

/-- The network is what it was only if the new links of the task are the old ones. -/
theorem Replaces.eq_iff (replaces : net.Replaces task made after) :
    after = net ↔ made.Perm (net.asDependant task) := by
  have old : ∀ link, link ∈ net.asDependant task ↔ link ∈ net.links ∧ link.dependant = task := by
    intro link
    rw [mem_asDependant, mem_links_iff]
  rw [List.perm_ext_iff_of_nodup (replaces.distinct.of_map _) ((net.nodup_keys_asDependant task).of_map _)]
  constructor
  · rintro rfl link
    rw [old]
    constructor
    · exact fun member => ⟨(replaces.mem_links link).mpr (.inr member), replaces.ofTask link member⟩
    · rintro ⟨there, ofTask⟩
      exact ((replaces.mem_links link).mp there).resolve_left fun other => other.2 ofTask
  · intro same
    refine ext_mem (fun link => ?_) replaces.defaults
    rw [replaces.mem_links, same, old]
    by_cases ofTask : link.dependant = task <;> simp [ofTask]

end Network

/-- Whether or not all are made, the links that are made take the place of those of the task. -/
theorem Predecessor.replaces_apply (h : Hierarchy) (net : Network) {task : TaskId}
    {tokens made : List Predecessor}
    (changes : (apply h (net.removeAll ((net.asDependant task).map Link.key)).state task tokens).changes =
      (made.map (link · task)).map .added) :
    net.Replaces task (made.map (link · task))
      (apply h (net.removeAll ((net.asDependant task).map Link.key)).state task tokens).state := by
  have removed := net.logs_removeAll ((net.asDependant task).map Link.key)
  have logged := logs_apply h (net.removeAll ((net.asDependant task).map Link.key)).state task tokens
  rw [Edited.Logs, changes] at logged
  refine ⟨fun link => ?_, fun link member => ?_, logged.gains.distinct,
    logged.defaults.trans removed.defaults⟩
  · rw [logged.gains.mem_links, Network.mem_links_removeAll_asDependant]
  · obtain ⟨token, -, rfl⟩ := List.mem_map.mp member
    rfl

namespace Project

variable {p : Project} {task : TaskId} {text separator : List Char} {reason : ProjectError}

/-- Where the text can be read, the old links are taken away before those of the tokens are made. -/
theorem setPredecessors_of_parseAll {tokens : List Predecessor}
    (read : Predecessor.parseAll text separator = .ok tokens) :
    let removed := p.network.removeAll ((p.network.asDependant task).map Link.key)
    let applied := Predecessor.apply p.hierarchy removed.state task tokens
    let changes := removed.changes ++ applied.changes
    p.setPredecessors task text separator = ⟨applied.answer.mapError .predecessor,
      { p with network := applied.state, stale := p.stale || !changes.isEmpty }, changes⟩ := by
  simp only [setPredecessors, read]
  rfl

/-- Where setting the predecessors fails, the text cannot be read, or one of its tokens makes no link. -/
theorem setPredecessors_eq_error
    (failed : (p.setPredecessors task text separator).answer = .error reason) :
    (∃ why, reason = .predecessor why ∧ Predecessor.parseAll text separator = .error why ∧
        p.setPredecessors task text separator = ⟨.error reason, p, []⟩) ∨
      ∃ why tokens, reason = .predecessor why ∧ Predecessor.parseAll text separator = .ok tokens ∧
        (Predecessor.apply p.hierarchy
          (p.network.removeAll ((p.network.asDependant task).map Link.key)).state task tokens).answer =
            .error why := by
  cases read : Predecessor.parseAll text separator with
  | error why =>
    have stopped : p.setPredecessors task text separator = ⟨.error (.predecessor why), p, []⟩ := by
      simp only [setPredecessors, read]
    rw [stopped] at failed ⊢
    obtain rfl := Except.error.inj failed
    exact .inl ⟨why, rfl, rfl, rfl⟩
  | ok tokens =>
    rw [setPredecessors_of_parseAll read] at failed
    obtain ⟨why, stopped, rfl⟩ := exists_error_of_mapError failed
    exact .inr ⟨why, tokens, rfl, rfl, stopped⟩

/-- Where setting the predecessors of a task fails, either the text cannot be read and nothing is changed,
or a token of it makes no link. Then the tokens before that one have made theirs, and of the links that
the project had, those of the task are gone and no others. So it has the links that it had exactly if
those tokens tell all predecessors of the task again, each once. -/
theorem failed_predecessors_spec (p : Project) (task : TaskId) (text separator : List Char)
    {reason : ProjectError} (failed : (p.setPredecessors task text separator).answer = .error reason) :
    let edited := p.setPredecessors task text separator
    let net := edited.state.network
    (∃ why, reason = .predecessor why ∧ Predecessor.parseAll text separator = .error why ∧
        edited.state = p ∧ edited.changes = []) ∨
      ∃ why made token rest, reason = .predecessor why ∧
        Predecessor.parseAll text separator = .ok (made ++ token :: rest) ∧
        token.Stops p.hierarchy net task why ∧
        edited.state = { p with network := net, stale := p.stale || !edited.changes.isEmpty } ∧
        (∀ link, link ∈ net.links ↔ link ∈ p.network.links ∧ link.dependant ≠ task ∨
          link ∈ made.map (Predecessor.link · task)) ∧
        (net = p.network ↔
          (made.map (Predecessor.link · task)).Perm (p.network.asDependant task)) := by
  intro edited net
  rcases setPredecessors_eq_error failed with
    ⟨why, told, unread, same⟩ | ⟨why, tokens, told, read, stopped⟩
  · have unchanged : edited = ⟨.error reason, p, []⟩ := same
    exact .inl ⟨why, told, unread, by rw [unchanged], by rw [unchanged]⟩
  · obtain ⟨made, token, rest, rfl, changes, stops⟩ := Predecessor.apply_eq_error stopped
    have replaces := Predecessor.replaces_apply p.hierarchy p.network changes
    refine .inr ⟨why, made, token, rest, told, read, ?_⟩
    simp only [net, edited, setPredecessors_of_parseAll read]
    exact ⟨stops, trivial, replaces.mem_links, replaces.eq_iff⟩

/-- The first of two tokens makes its link, and the second names a task that lies in the task itself. -/
theorem failed_predecessors_spec_of_nested : ∃ start, ofSettings { weekends := [] } = .ok start ∧
    let p := start.run Edit.written
    let edited := p.setPredecessors Sample.outer "3;2".toList [';']
    let refusal := LinkError.nestedTasks ⟨Sample.outer, Sample.inner⟩
    edited.answer = .error (.predecessor (.refused Sample.outer Sample.inner refusal)) ∧
      (∀ link, link ∈ edited.state.network.links ↔
        link ∈ p.network.links ∧ link.dependant ≠ Sample.outer ∨
          link = { key := ⟨Sample.outer, Sample.other⟩ }) ∧
      edited.state.network ≠ p.network := by
  obtain ⟨start, opened⟩ : ∃ start, ofSettings { weekends := [] } = .ok start := ⟨_, rfl⟩
  refine ⟨start, opened, ?_⟩
  intro p edited refusal
  have apart : ¬ Predecessor.MayHold ';' := by simp [Predecessor.MayHold]
  have read : Predecessor.parseAll "3;2".toList [';'] =
      .ok [{ dependee := Sample.other }, { dependee := Sample.inner }] :=
    Predecessor.parseAll_intercalate [{ dependee := Sample.other }, { dependee := Sample.inner }] apart []
  have refused : edited.answer =
      .error (.predecessor (.refused Sample.outer Sample.inner refusal)) := by
    simp only [edited, setPredecessors_of_parseAll read]
    cases opened
    decide
  rcases failed_predecessors_spec p Sample.outer "3;2".toList [';'] refused with
    ⟨why, -, unread, -⟩ | ⟨why, made, token, rest, told, tokens, stops, -, links, same⟩
  · rw [read] at unread
    cases unread
  · obtain rfl := ProjectError.predecessor.inj told
    have split : [{ dependee := Sample.other }, { dependee := Sample.inner }] = made ++ token :: rest :=
      Except.ok.inj (read.symm.trans tokens)
    -- The reason names the dependee of the token at which the making stopped, and it is the second one.
    have second : token.dependee = Sample.inner := stops.dependee_eq
    obtain rfl : made = [{ dependee := Sample.other }] := by
      rcases made with - | ⟨first, - | ⟨_, more⟩⟩
      · cases split
        exact absurd second (by decide)
      · cases split
        rfl
      · simp at split
    refine ⟨refused, fun link => (links link).trans ?_, fun equal => ?_⟩
    · rw [List.map_singleton, List.mem_singleton]
      rfl
    · have old := List.singleton_perm.mp (same.mp equal)
      cases opened
      exact absurd old (by decide)

end Project

/-- The name of no task. -/
def Sample.stranger : TaskId := { number := 7 }

namespace Project

/-- A token that names an unknown task takes away the link on which the task waited. -/
theorem failed_predecessors_lost : ∃ start, ofSettings { weekends := [] } = .ok start ∧
    let p := start.run Edit.written
    let edited := p.setPredecessors Sample.outer "7".toList [';']
    edited.answer = .error (.predecessor (.unknownTask Sample.stranger)) ∧
      p.network.find? Sample.far.key = some Sample.far ∧
      edited.state.network.find? Sample.far.key = none := by
  have apart : ¬ Predecessor.MayHold ';' := by simp [Predecessor.MayHold]
  have read : Predecessor.parseAll "7".toList [';'] = .ok [{ dependee := Sample.stranger }] :=
    Predecessor.parseAll_intercalate [{ dependee := Sample.stranger }] apart []
  refine ⟨_, rfl, ?_⟩
  simp only [setPredecessors_of_parseAll read]
  decide

end Project

end Workplan
