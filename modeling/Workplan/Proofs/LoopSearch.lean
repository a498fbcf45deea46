/-
# Workplan.Proofs.LoopSearch — the walk that looks for loops

The walk knows nothing of the flow of a plan: it steps from stop to stop, and a test is made at
each. A stop that was entered covers its task and whatever lies in it; one that was climbed to
covers its task alone, so nothing is lost by passing over it once the task was entered. What the stops
of a walk cover is what the arrows of `Precedes` lead to:

* `isLooping_iff_exists_within` — passing over stops and ending early do not change the answer;
* `reached_of_covered` — every covered task is reached from the dependant or from a task in it;
* `exists_stop` — every task that is reached so has a stop of its own;
* `isLooping_iff` — a loop is told exactly where the dependee is reached.
-/
import Workplan.Network.Loop
import Workplan.Proofs.Precedence
import Workplan.Proofs.Walks

namespace Workplan.Network

set_option autoImplicit false

variable {h : Hierarchy} {net : Network}

theorem mem_dependantsOf {task dependant : TaskId} :
    dependant ∈ net.dependantsOf task ↔ net.contains ⟨dependant, task⟩ = true := by
  simp only [dependantsOf, List.mem_map, Catalog.mem_range, LinkEnd.between_role_iff, net.mem_index,
    contains_iff]
  constructor
  · rintro ⟨e, ⟨⟨link, member, inside⟩, rfl, role⟩, rfl⟩
    refine ⟨link, member, ?_⟩
    rw [← LinkKey.key_of_mem_ends inside, LinkEnd.key, role]
  · rintro ⟨link, member, key⟩
    refine ⟨link.key.dependeeEnd, ⟨⟨link, member, LinkKey.mem_ends.mpr (.inr rfl)⟩, ?_, rfl⟩, ?_⟩
    · rw [LinkKey.dependeeEnd, key]
    · rw [LinkKey.dependeeEnd, key]

/-! ## Steps of a walk -/

/-- One stop follows the other. -/
def Follows (h : Hierarchy) (net : Network) (a b : Stop) : Prop :=
  b ∈ nextStops h net a

/-- A stop is followed by entered tasks that are nested in an entered one, by entered dependants,
and by its container. -/
theorem follows_iff {a b : Stop} : Follows h net a b ↔
    (a.arrival = .entered ∧ b.task ∈ h.nested a.task ∧ b.arrival = .entered) ∨
      (net.contains ⟨b.task, a.task⟩ = true ∧ b.arrival = .entered) ∨
      (h.container a.task = some b.task ∧ b.arrival = .climbed) := by
  obtain ⟨task, arrival⟩ := a
  obtain ⟨following, entered | climbed⟩ := b <;> cases arrival <;>
    simp [Follows, nextStops, mem_dependantsOf]

theorem follows_nested (forest : h.IsForest) {task child : TaskId}
    (found : h.container child = some task) :
    Follows h net ⟨task, .entered⟩ ⟨child, .entered⟩ :=
  follows_iff.mpr (.inl ⟨rfl, (forest.mem_nested task child).mpr found, rfl⟩)

theorem follows_link {task dependant : TaskId} {arrival : Arrival}
    (there : net.contains ⟨dependant, task⟩ = true) :
    Follows h net ⟨task, arrival⟩ ⟨dependant, .entered⟩ :=
  follows_iff.mpr (.inr (.inl ⟨there, rfl⟩))

theorem follows_container {task container : TaskId} {arrival : Arrival}
    (found : h.container task = some container) :
    Follows h net ⟨task, arrival⟩ ⟨container, .climbed⟩ :=
  follows_iff.mpr (.inr (.inr ⟨found, rfl⟩))

theorem follows_cases (forest : h.IsForest) {a b : Stop} (follows : Follows h net a b) :
    (a.arrival = .entered ∧ h.container b.task = some a.task ∧ b.arrival = .entered) ∨
      (net.contains ⟨b.task, a.task⟩ = true ∧ b.arrival = .entered) ∨
      (h.container a.task = some b.task ∧ b.arrival = .climbed) := by
  rcases follows_iff.mp follows with ⟨entered, nested, arrival⟩ | others
  · exact .inl ⟨entered, (forest.mem_nested _ _).mp nested, arrival⟩
  · exact .inr others

theorem mem_places {dependant : TaskId} {stop : Stop} :
    stop ∈ places h net dependant ↔ stop.task = dependant ∨ stop.task ∈ h.tasks ∨
      ∃ link ∈ net.links, link.dependant = stop.task := by
  obtain ⟨task, arrival⟩ := stop
  have anyArrival : arrival = .entered ∨ arrival = .climbed := by cases arrival <;> simp
  simp only [places, toList, List.mem_flatMap, List.mem_append, List.mem_cons, List.mem_map,
    ← Catalog.mem_def, Stop.mk.injEq, List.not_mem_nil, or_false]
  constructor
  · rintro ⟨other, member, ⟨rfl, -⟩ | ⟨rfl, -⟩⟩ <;> rwa [or_assoc] at member
  · intro member
    refine ⟨task, or_assoc.mpr member, ?_⟩
    simpa using anyArrival

theorem places_closed (forest : h.IsForest) {dependant : TaskId} {a b : Stop}
    (follows : Follows h net a b) : b ∈ places h net dependant := by
  rw [mem_places]
  rcases follows_cases forest follows with ⟨-, found, -⟩ | ⟨there, -⟩ | ⟨found, -⟩
  · exact .inr (.inl (forest.mem_tasks _ _ found).1)
  · obtain ⟨link, member, key⟩ := contains_iff.mp there
    exact .inr (.inr ⟨link, member, by rw [Link.dependant, key]⟩)
  · exact .inr (.inl (forest.mem_tasks _ _ found).2)

/-- Climbing to a task leads nowhere, and tells of nothing, that entering it does not. -/
theorem spared (start target : TaskId) :
    Reach.Spared (nextStops h net) isIdle (reaches h target) (places h net start) := by
  rintro ⟨task, arrival⟩ member left idle
  simp only [isIdle, Bool.and_eq_true, decide_eq_true_eq] at idle
  obtain ⟨rfl, closed⟩ := idle
  have entered : ⟨task, .entered⟩ ∈ places h net start := by
    rw [mem_places] at member ⊢
    exact member
  refine ⟨⟨task, .entered⟩, entered, closed, fun _ => rfl, fun stop follows => ?_, fun reach => ?_⟩
  · rcases follows_iff.mp follows with ⟨entered, -⟩ | others
    · contradiction
    · exact follows_iff.mpr (.inr others)
  · simp only [reaches, Bool.or_eq_true] at reach
    simp only [reaches, Hierarchy.related, Bool.or_eq_true]
    rcases reach with same | above
    · exact .inl (.inl same)
    · exact .inr above

/-- A loop is told exactly where a stop shows one, whatever the order of the stops and with or without
the idle ones. -/
theorem isLooping_iff_exists_within {key : LinkKey} :
    net.isLooping h key = true ↔ ∃ stop,
      Reach.Within (nextStops h net) (places h net key.dependant) [⟨key.dependant, .entered⟩] stop ∧
        reaches h key.dependee stop = true :=
  Reach.finds_iff (spared key.dependant key.dependee) (Nat.le_refl _) (fun _ => id)
    fun _ member closed => absurd member closed

theorem isLooping_iff_exists_stop (forest : h.IsForest) {key : LinkKey} :
    net.isLooping h key = true ↔ ∃ stop,
      Relation.ReflTransGen (Follows h net) ⟨key.dependant, .entered⟩ stop ∧
        reaches h key.dependee stop = true := by
  have inside : ∀ stop ∈ [(⟨key.dependant, .entered⟩ : Stop)],
      stop ∈ places h net key.dependant := by
    simp [mem_places]
  simp only [isLooping_iff_exists_within,
    Reach.within_iff_reflTransGen (fun _ _ _ follows => places_closed forest follows) inside,
    List.mem_singleton, exists_eq_left]
  rfl

/-! ## What a walk covers -/

/-- The tasks that a stop stands for. -/
def Covers (h : Hierarchy) (stop : Stop) (task : TaskId) : Prop :=
  match stop.arrival with
  | .entered => h.Under task stop.task
  | .climbed => task = stop.task

theorem covers_self (stop : Stop) : Covers h stop stop.task := by
  unfold Covers
  split
  · exact .inl rfl
  · rfl

/-- The walk covers nothing but what is reached. -/
theorem reached_of_covered (forest : h.IsForest) {start : TaskId} {stop : Stop}
    (walk : Relation.ReflTransGen (Follows h net) ⟨start, .entered⟩ stop) :
    ∀ task, Covers h stop task → ReachedFrom h net start task := by
  induction walk with
  | refl => exact fun task under => ⟨task, under, .refl⟩
  | @tail a b _ follows ih =>
    obtain ⟨taskA, arrivalA⟩ := a
    obtain ⟨taskB, arrivalB⟩ := b
    intro task covered
    rcases follows_cases forest follows with ⟨enteredA, found, enteredB⟩ | ⟨there, enteredB⟩ |
      ⟨found, climbed⟩
    · simp only at enteredA enteredB found
      subst enteredA enteredB
      have under : h.Under task taskB := covered
      exact ih task (under.trans (.inr (.of_container found)))
    · simp only at enteredB there
      subst enteredB
      have arrow : Precedes h net taskA task := .link there covered
      exact (ih taskA (covers_self ⟨taskA, arrivalA⟩)).step arrow
    · simp only at climbed found
      subst climbed
      have same : task = taskB := covered
      subst same
      exact (ih taskA (covers_self ⟨taskA, arrivalA⟩)).step (.containment found)

theorem walk_inwards (forest : h.IsForest) {task outer : TaskId} (under : h.Under task outer) :
    Relation.ReflTransGen (Follows h net) ⟨outer, .entered⟩ ⟨task, .entered⟩ := by
  rcases under with rfl | inside
  · exact .refl
  · induction inside using Relation.TransGen.head_induction_on with
    | single found => exact .single (follows_nested forest found)
    | head found _ ih => exact ih.tail (follows_nested forest found)

/-- The walk stops at everything that is reached. -/
theorem exists_stop (forest : h.IsForest) {start task : TaskId}
    (found : ReachedFrom h net start task) : ∃ arrival,
      Relation.ReflTransGen (Follows h net) ⟨start, .entered⟩ ⟨task, arrival⟩ := by
  obtain ⟨first, under, way⟩ := found
  induction way with
  | refl => exact ⟨.entered, walk_inwards forest under⟩
  | tail _ arrow ih =>
    obtain ⟨arrival, walk⟩ := ih
    cases arrow with
    | link there below =>
      exact ⟨.entered, (walk.tail (follows_link there)).trans (walk_inwards forest below)⟩
    | containment container => exact ⟨.climbed, walk.tail (follows_container container)⟩

theorem reaches_self {task : TaskId} {arrival : Arrival} :
    reaches h task ⟨task, arrival⟩ = true := by
  cases arrival with
  | entered => exact h.related_self task
  | climbed => simp [reaches]

theorem reached_of_reaches (forest : h.IsForest) {start target : TaskId} {stop : Stop}
    (walk : Relation.ReflTransGen (Follows h net) ⟨start, .entered⟩ stop)
    (reach : reaches h target stop = true) : ReachedFrom h net start target := by
  have covered := reached_of_covered forest walk
  have own := covered stop.task (covers_self stop)
  obtain ⟨task, arrival⟩ := stop
  cases arrival with
  | entered =>
    rcases forest.related_iff.mp reach with rfl | below | above
    · exact own
    · exact covered target (.inr below)
    · exact own.upwards (.inr above)
  | climbed =>
    simp only [reaches, Bool.or_eq_true, decide_eq_true_eq, forest.isAncestor_iff] at reach
    rcases reach with rfl | above
    · exact own
    · exact own.upwards (.inr above)

/-- A loop is told exactly where the arrows lead from the dependant, or from a task in it, to the
dependee. -/
theorem isLooping_iff (forest : h.IsForest) {key : LinkKey} :
    net.isLooping h key = true ↔ ReachedFrom h net key.dependant key.dependee := by
  rw [isLooping_iff_exists_stop forest]
  constructor
  · rintro ⟨stop, walk, reach⟩
    exact reached_of_reaches forest walk reach
  · intro found
    obtain ⟨arrival, walk⟩ := exists_stop forest found
    exact ⟨⟨key.dependee, arrival⟩, walk, reaches_self⟩

end Workplan.Network
