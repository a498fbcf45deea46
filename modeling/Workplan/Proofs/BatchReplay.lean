/-
# Workplan.Proofs.BatchReplay — a batch and its surviving calls

Committing a batch does what some of its calls would have done at once. The calls that survive are told
from the list of calls alone, without a queue: a call has to enter, and no later one may cancel it. An
addition enters if its two tasks allow it and no addition of the same link waits; a removal enters if it
finds no addition to cancel. A clearing cancels all that came before it.

* `queue_eq_survivors` — what waits in the queue is what the surviving calls ask, in their order;
* `Numbered.inOrder_eq` — so it is if every edit gets a number, from a count that is not started over, and
  the queue is sorted by numbers in the end;
* `commit_eq_replay` — hence a commit is the surviving calls made directly, with the same links, changes
  and refusals.
-/
import Workplan.Proofs.BatchQueues

namespace Workplan

set_option autoImplicit false

namespace BatchCall

/-! ## The calls that survive -/

/-- The link that the call asks to add, by its key. -/
def added? : BatchCall → Option LinkKey
  | add link => some link.key
  | create key => some key
  | remove _ | clear => none

/-- After the call no addition of the link waits. -/
def callsOff (key : LinkKey) : BatchCall → Bool
  | remove other => other = key
  | clear => true
  | add _ | create _ => false

/-- Whether an addition of the link waits after calls: its tasks allow it, and one was asked for and has
not been called off since. -/
def waits (h : Hierarchy) (calls : List BatchCall) (key : LinkKey) : Bool :=
  Network.checkPair h key = .ok () &&
    calls.foldl (fun asked call => !call.callsOff key && (asked || call.added? = some key)) false

/-- Whether a call after others is queued, and neither refused nor spent on cancelling another one. -/
def enters (h : Hierarchy) (front : List BatchCall) : BatchCall → Bool
  | add link => Network.checkPair h link.key = .ok () && !waits h front link.key
  | create key => Network.checkPair h key = .ok () && !waits h front key
  | remove key => !waits h front key
  | clear => true

/-- Whether a later call takes an earlier one back. -/
def cancels : BatchCall → BatchCall → Bool
  | clear, _ => true
  | remove key, earlier => earlier.added? = some key
  | add _, _ | create _, _ => false

/-- The calls that survive among those that come after others. -/
def survivorsAfter (h : Hierarchy) (front : List BatchCall) : List BatchCall → List BatchCall
  | [] => []
  | call :: back =>
    let later := survivorsAfter h (front ++ [call]) back
    if enters h front call && !back.any (cancels · call) then call :: later else later

def survivors (h : Hierarchy) (calls : List BatchCall) : List BatchCall :=
  survivorsAfter h [] calls

/-! ## Calls made directly -/

/-- What came of one addition. -/
def reportOf (link : Link) : Except LinkError Link → CommitReport
  | .ok _ => { applied := 1 }
  | .error refusal => { failed := [(link, refusal)] }

/-- Makes the call at once. -/
def perform (h : Hierarchy) (net : Network) : BatchCall → Edited Network CommitReport
  | add link => (net.add h link).map (reportOf link)
  | create key => (net.add h (net.newLink key)).map (reportOf (net.newLink key))
  | remove key => (net.remove key).map fun _ => { applied := 1 }
  | clear => net.clear.map fun _ => { applied := 1 }

/-- Makes calls one after another. -/
def replay (h : Hierarchy) (net : Network) : List BatchCall → Edited Network CommitReport
  | [] => ⟨{}, net, []⟩
  | call :: rest =>
    (call.perform h net).andThen fun report net => (replay h net rest).map report.append

/-! ## What waits -/

/-- What waits in a queue for the call. -/
def pending (net : Network) : BatchCall → Pending
  | add link => .add link
  | create key => .add (net.newLink key)
  | remove key => .remove key
  | clear => .clear

section Queue

variable {h : Hierarchy} {net : Network} {call : BatchCall} {calls front : List BatchCall}
  {key : LinkKey} {link : Link} {queue next : List Pending}

/-- Two kinds of calls ask for an addition. -/
theorem eq_of_link? (asked : call.link? net = some link) :
    call = .add link ∨ ∃ key, call = .create key ∧ link = net.newLink key := by
  cases call with
  | add added => exact .inl (congrArg add (Option.some_inj.mp asked))
  | create key => exact .inr ⟨key, rfl, (Option.some_inj.mp asked).symm⟩
  | remove | clear => contradiction

theorem added?_of_link? (asked : call.link? net = some link) : call.added? = some link.key := by
  rcases eq_of_link? asked with rfl | ⟨key, rfl, rfl⟩ <;> rfl

theorem pending_of_link? (asked : call.link? net = some link) : call.pending net = .add link := by
  rcases eq_of_link? asked with rfl | ⟨key, rfl, rfl⟩ <;> rfl

theorem callsOff_of_link? (asked : call.link? net = some link) (key : LinkKey) :
    call.callsOff key = false := by
  rcases eq_of_link? asked with rfl | ⟨key, rfl, rfl⟩ <;> rfl

theorem cancels_of_link? (asked : call.link? net = some link) (earlier : BatchCall) :
    call.cancels earlier = false := by
  rcases eq_of_link? asked with rfl | ⟨key, rfl, rfl⟩ <;> rfl

theorem enters_of_link? (asked : call.link? net = some link) :
    enters h front call =
      (decide (Network.checkPair h link.key = .ok ()) && !waits h front link.key) := by
  rcases eq_of_link? asked with rfl | ⟨key, rfl, rfl⟩ <;> rfl

theorem adds_pending (call : BatchCall) (key : LinkKey) :
    (call.pending net).adds key = decide (call.added? = some key) := by
  cases call <;> simp [pending, Pending.adds, added?, Network.newLink]

theorem waits_concat (h : Hierarchy) (calls : List BatchCall) (call : BatchCall) (key : LinkKey) :
    waits h (calls ++ [call]) key = (!call.callsOff key && (waits h calls key ||
      decide (Network.checkPair h key = .ok ()) && decide (call.added? = some key))) := by
  simp only [waits, List.foldl_append, List.foldl_cons, List.foldl_nil]
  cases decide (Network.checkPair h key = .ok ()) <;> simp

/-- One more call cancels some of those that survived, and survives itself if it enters. -/
theorem survivorsAfter_concat (h : Hierarchy) (front calls : List BatchCall) (last : BatchCall) :
    survivorsAfter h front (calls ++ [last]) =
      (survivorsAfter h front calls).filter (fun call => !last.cancels call) ++
        if enters h (front ++ calls) last then [last] else [] := by
  induction calls generalizing front with
  | nil => cases entered : enters h front last <;> simp [survivorsAfter, entered]
  | cons call back ih =>
    have later := ih (front ++ [call])
    rw [List.append_assoc, List.singleton_append] at later
    simp only [List.cons_append, survivorsAfter, later, List.any_append, List.any_cons, List.any_nil,
      Bool.or_false]
    cases enters h front call <;> cases back.any (cancels · call) <;>
      cases cancelled : last.cancels call <;> simp [cancelled]

/-- What one call does to the additions of a link that are in the queue. -/
theorem Queues.any_adds (queues : Queues h net call queue next) (distinct : Distinct queue)
    (key : LinkKey) : next.any (Pending.adds key) = (!call.callsOff key &&
      (queue.any (Pending.adds key) ||
        decide (Network.checkPair h key = .ok ()) && decide (call.added? = some key))) := by
  cases queues with
  | clear => simp [Pending.adds, callsOff]
  | @remove removed _ none =>
    by_cases same : removed = key
    · subst same
      simp [none, Pending.adds, callsOff]
    · simp [Pending.adds, callsOff, added?, same]
  | @takeBack link front back none =>
    have takes : Queues h net (.remove link.key) (front ++ .add link :: back) (front ++ back) :=
      .takeBack none
    have gone := takes.none_after_remove distinct
    by_cases same : link.key = key
    · subst same
      simp [gone, callsOff]
    · simp [Pending.adds, callsOff, added?, same]
  | @add _ link _ asked admitted none =>
    rw [callsOff_of_link? asked, added?_of_link? asked]
    by_cases same : link.key = key
    · subst same
      simp [Pending.adds, admitted]
    · simp [Pending.adds, same]
  | @refuse _ link _ asked refused =>
    rw [callsOff_of_link? asked, added?_of_link? asked]
    by_cases same : link.key = key
    · subst same
      rcases refused with unfit | waiting
      · simp [unfit]
      · simp [waiting]
    · simp [same]

/-- An addition of the link is in the queue exactly when one waits. -/
theorem any_adds_queueAll (h : Hierarchy) (net : Network) (calls : List BatchCall) (key : LinkKey) :
    (queueAll h net calls).queue.any (Pending.adds key) = waits h calls key := by
  induction calls using List.reverseRecOn with
  | nil => simp [queueAll, waits]
  | append_singleton calls call ih =>
    rw [queueAll_concat, (queues h net _ call).any_adds (distinct_queueAll calls), ih, waits_concat]

/-- A batch refuses an addition just when the call does not enter. -/
theorem exists_queued_iff (h : Hierarchy) (net : Network) (front : List BatchCall) (link : Link) :
    (∃ grown, (queueAll h net front).add h link = .ok grown) ↔ enters h front (.add link) = true := by
  simp only [Batch.add, any_adds_queueAll, enters]
  cases Network.checkPair h link.key with
  | error refusal => simp
  | ok => cases waits h front link.key <;> simp

/-- Of a queue without two additions of one link, only the addition that is taken back goes. -/
theorem filter_takeBack {back : List Pending} {front : List Pending}
    (distinct : Distinct (front ++ .add link :: back)) (none : back.any (Pending.adds link.key) = false) :
    (front ++ .add link :: back).filter (fun waiting => !waiting.adds link.key) = front ++ back := by
  obtain ⟨-, -, apart⟩ := List.pairwise_append.mp distinct
  have keepFront : front.filter (fun waiting => !waiting.adds link.key) = front := by
    refine List.filter_eq_self.mpr fun waiting member => ?_
    cases adds : waiting.adds link.key with
    | false => rfl
    | true =>
      have other := apart waiting member _ List.mem_cons_self link.key adds
      simp [Pending.adds] at other
  have keepBack : back.filter (fun waiting => !waiting.adds link.key) = back := by
    refine List.filter_eq_self.mpr fun waiting member => ?_
    simpa using List.any_eq_false.mp none waiting member
  rw [List.filter_append, List.filter_cons, keepFront, keepBack]
  simp [Pending.adds]

/-- What one call does to a queue is what it does to the calls that survived. -/
theorem Queues.next_eq (queues : Queues h net call queue next) (distinct : Distinct queue)
    {survived : List BatchCall} (same : queue = survived.map (pending net))
    (waiting : ∀ key, queue.any (Pending.adds key) = waits h calls key) :
    next = (survived.filter (fun earlier => !call.cancels earlier) ++
      if enters h calls call then [call] else []).map (pending net) := by
  have kept : ∀ key, (survived.filter fun earlier => !decide (earlier.added? = some key)).map
      (pending net) = queue.filter fun waiting => !waiting.adds key := by
    intro key
    rw [same, List.filter_map]
    congr 2
    funext earlier
    simp [adds_pending]
  cases queues with
  | clear => simp [cancels, enters, pending]
  | @remove key _ none =>
    have all : queue.filter (fun waiting => !waiting.adds key) = queue :=
      List.filter_eq_self.mpr fun waiting member => by simpa using List.any_eq_false.mp none waiting member
    simp only [cancels, enters, ← waiting, none, List.map_append, kept, all]
    rfl
  | @takeBack link front back none =>
    have waits := waiting link.key
    simp only [cancels, enters, ← waiting, List.map_append, kept, filter_takeBack distinct none]
    simp [Pending.adds]
  | @add _ link _ asked admitted none =>
    have entered : enters h calls call = true := by
      rw [enters_of_link? asked, ← waiting, none]
      simp [admitted]
    simp [cancels_of_link? asked, entered, same, pending_of_link? asked]
  | @refuse _ link _ asked refused =>
    have out : enters h calls call = false := by
      rw [enters_of_link? asked, ← waiting]
      rcases refused with unfit | waiting
      · simp [unfit]
      · simp [waiting]
    simp [cancels_of_link? asked, out, same]

/-- The queue of a batch holds what the surviving calls ask. -/
theorem queue_eq_survivors (h : Hierarchy) (net : Network) (calls : List BatchCall) :
    (queueAll h net calls).queue = (survivors h calls).map (pending net) := by
  induction calls using List.reverseRecOn with
  | nil => rfl
  | append_singleton calls call ih =>
    rw [queueAll_concat, survivors, survivorsAfter_concat]
    exact (queues h net _ call).next_eq (distinct_queueAll calls) ih (any_adds_queueAll h net calls)

end Queue

/-! ## The replay -/

section Replay

variable {h : Hierarchy}

theorem defaults_perform (net : Network) (pending : Pending) :
    (Batch.perform h net pending).state.defaults = net.defaults :=
  (net.realizes_self.performPending pending).defaults

theorem perform_eq (h : Hierarchy) (net : Network) (call : BatchCall) :
    call.perform h net = Batch.perform h net (call.pending net) := by
  cases call with
  | add | create =>
    simp only [perform, pending, Batch.perform, Edited.map]
    split <;> rename_i answered <;> simp [answered, reportOf]
  | remove | clear => rfl

theorem pending_congr {net other : Network} (same : other.defaults = net.defaults) :
    pending other = pending net := by
  funext call
  cases call <;> simp [pending, Network.newLink, same]

/-- Calls made directly are the queued edits that they ask for. -/
theorem replay_eq (net : Network) (calls : List BatchCall) :
    replay h net calls = Batch.performAll h net (calls.map (pending net)) := by
  induction calls generalizing net with
  | nil => rfl
  | cons call rest ih =>
    have unchanged := pending_congr (defaults_perform (h := h) net (call.pending net))
    simp only [replay, List.map_cons, Batch.performAll, Edited.andThen, perform_eq, ih, unchanged]

theorem length_performAll (net : Network) (queue : List Pending) :
    (Batch.performAll h net queue).answer.applied +
      (Batch.performAll h net queue).answer.failed.length = queue.length := by
  induction queue generalizing net with
  | nil => rfl
  | cons pending rest ih =>
    have one : (Batch.perform h net pending).answer.applied +
        (Batch.perform h net pending).answer.failed.length = 1 := by
      cases pending with
      | add link =>
        simp only [Batch.perform]
        split <;> rfl
      | remove | clear => rfl
    have later := ih (Batch.perform h net pending).state
    simp only [Batch.performAll, Edited.andThen, Edited.map, CommitReport.append, List.length_append,
      List.length_cons]
    omega

end Replay

/-! ## Numbers -/

/-- A queue in which every edit has a number, and the last number that was given. -/
structure Numbered where
  last : Nat
  queue : List (Nat × Pending) := []

namespace Numbered

/-- The queue without its numbers. -/
def batch (numbered : Numbered) : Batch := ⟨numbered.queue.map Prod.snd⟩

/-- Puts an edit last, under the next number. -/
def push (numbered : Numbered) (pending : Pending) : Numbered :=
  ⟨numbered.last + 1, numbered.queue ++ [(numbered.last + 1, pending)]⟩

/-- Queues an addition unless it is refused. -/
def add (h : Hierarchy) (numbered : Numbered) (link : Link) : Numbered :=
  match Network.checkPair h link.key with
  | .error _ => numbered
  | .ok () =>
    if numbered.queue.any fun entry => entry.2.adds link.key then numbered
    else numbered.push (.add link)

/-- Takes the latest queued addition of the link back, and its number with it, or else queues a
removal. -/
def remove (numbered : Numbered) (key : LinkKey) : Numbered :=
  if numbered.queue.any fun entry => entry.2.adds key then
    ⟨numbered.last, (numbered.queue.reverse.eraseP fun entry => entry.2.adds key).reverse⟩
  else numbered.push (.remove key)

/-- The queue after a call. -/
def call (h : Hierarchy) (net : Network) (numbered : Numbered) : BatchCall → Numbered
  | .add link => numbered.add h link
  | .create key => numbered.add h (net.newLink key)
  | .remove key => numbered.remove key
  | .clear => push ⟨numbered.last, []⟩ .clear

/-- The queue after calls on a new batch, where numbers have been given before. -/
def callAll (h : Hierarchy) (net : Network) (given : Nat) (calls : List BatchCall) : Numbered :=
  calls.foldl (call h net) ⟨given, []⟩

/-- The edits by their numbers. -/
def inOrder (numbered : Numbered) : List Pending :=
  (numbered.queue.mergeSort fun a b => a.1 ≤ b.1).map Prod.snd

/-- The numbers grow along the queue, up to the last one. -/
structure Grows (numbered : Numbered) : Prop where
  increasing : numbered.queue.Pairwise fun a b => a.1 < b.1
  le_last : ∀ entry ∈ numbered.queue, entry.1 ≤ numbered.last

variable {h : Hierarchy} {net : Network} {numbered : Numbered}

theorem batch_push (numbered : Numbered) (pending : Pending) :
    (numbered.push pending).batch = ⟨numbered.batch.queue ++ [pending]⟩ := by
  simp [batch, push]

theorem any_batch (numbered : Numbered) (key : LinkKey) :
    numbered.batch.queue.any (Pending.adds key) =
      numbered.queue.any fun entry => entry.2.adds key := by
  simp [batch, Function.comp_def]

theorem batch_add (numbered : Numbered) (link : Link) :
    (numbered.add h link).batch = numbered.batch.tryAdd h link := by
  simp only [add, Batch.tryAdd, Batch.add, any_batch]
  cases Network.checkPair h link.key with
  | error refusal => rfl
  | ok =>
    simp only
    split
    · rfl
    · exact batch_push numbered (.add link)

theorem batch_remove (numbered : Numbered) (key : LinkKey) :
    (numbered.remove key).batch = numbered.batch.remove key := by
  simp only [remove, Batch.remove, any_batch]
  split
  · simp only [batch, ← List.map_reverse, List.eraseP_map]
    rfl
  · exact batch_push numbered (.remove key)

theorem batch_call (numbered : Numbered) (asked : BatchCall) :
    (numbered.call h net asked).batch = asked.queue h net numbered.batch := by
  cases asked with
  | add link => exact batch_add numbered link
  | create key => exact batch_add numbered (net.newLink key)
  | remove key => exact batch_remove numbered key
  | clear => rfl

theorem Grows.push (grows : numbered.Grows) (pending : Pending) : (numbered.push pending).Grows := by
  refine ⟨List.pairwise_append.mpr ⟨grows.increasing, List.pairwise_singleton _ _, ?_⟩, ?_⟩
  · intro entry member new isNew
    obtain rfl := List.mem_singleton.mp isNew
    exact Nat.lt_succ_of_le (grows.le_last entry member)
  · intro entry member
    rcases List.mem_append.mp member with old | new
    · exact Nat.le_succ_of_le (grows.le_last entry old)
    · obtain rfl := List.mem_singleton.mp new
      exact Nat.le_refl _

theorem Grows.sublist (grows : numbered.Grows) {queue : List (Nat × Pending)}
    (sub : queue.Sublist numbered.queue) : Grows ⟨numbered.last, queue⟩ :=
  ⟨grows.increasing.sublist sub, fun entry member => grows.le_last entry (sub.subset member)⟩

theorem Grows.add (grows : numbered.Grows) (link : Link) : (numbered.add h link).Grows := by
  unfold Numbered.add
  split
  · exact grows
  · split
    · exact grows
    · exact grows.push _

theorem Grows.call (grows : numbered.Grows) (asked : BatchCall) :
    (numbered.call h net asked).Grows := by
  cases asked with
  | add link => exact grows.add link
  | create key => exact grows.add (net.newLink key)
  | remove key =>
    simp only [Numbered.call, Numbered.remove]
    split
    · refine grows.sublist ?_
      have erased := (List.eraseP_sublist (p := fun entry => entry.2.adds key)
        (l := numbered.queue.reverse)).reverse
      rwa [List.reverse_reverse] at erased
    · exact grows.push _
  | clear => exact (grows.sublist (List.nil_sublist _)).push _

theorem Grows.inOrder_eq (grows : numbered.Grows) : numbered.inOrder = numbered.batch.queue := by
  have sorted : numbered.queue.Pairwise fun a b => decide (a.1 ≤ b.1) = true :=
    grows.increasing.imp fun less => decide_eq_true (Nat.le_of_lt less)
  rw [inOrder, List.mergeSort_of_pairwise sorted, batch]

/-- Sorting by numbers leaves a queue as it is, wherever the count began. -/
theorem inOrder_eq (h : Hierarchy) (net : Network) (given : Nat) (calls : List BatchCall) :
    (callAll h net given calls).inOrder = (queueAll h net calls).queue := by
  have steps : ∀ numbered : Numbered, numbered.Grows →
      (calls.foldl (call h net) numbered).Grows ∧
        (calls.foldl (call h net) numbered).batch =
          calls.foldl (BatchCall.queue h net) numbered.batch := by
    induction calls with
    | nil => exact fun numbered grows => ⟨grows, rfl⟩
    | cons first rest ih =>
      intro numbered grows
      rw [List.foldl_cons, List.foldl_cons, ← batch_call]
      exact ih _ (grows.call first)
  obtain ⟨grows, same⟩ := steps ⟨given, []⟩ ⟨.nil, by simp⟩
  rw [callAll, grows.inOrder_eq, same]
  rfl

end Numbered

/-- Whatever is called on a batch: as long as it is not committed, and for ever if it is given up, the
links are untouched and nothing is told. A commit leaves the links, tells the changes and reports the
refusals that the surviving calls do when they are made directly, one after another; it does so too if it
goes by numbers that the edits got from a count shared with earlier batches. Every surviving call is
counted once, as made or as refused. The additions that do not enter are those that the batch refuses. -/
theorem commit_eq_replay (h : Hierarchy) (net : Network) (calls : List BatchCall) (given : Nat) :
    let made := replay h net (survivors h calls)
    (LinkEdit.batch calls false).perform h net = ⟨(), net, []⟩ ∧
    (queueAll h net calls).commit h net = made ∧
    Batch.performAll h net (Numbered.callAll h net given calls).inOrder = made ∧
    made.answer.applied + made.answer.failed.length = (survivors h calls).length ∧
    ∀ front link, enters h front (.add link) = true ↔
      ∃ grown, (queueAll h net front).add h link = .ok grown := by
  intro made
  have committed : (queueAll h net calls).commit h net = made := by
    rw [Batch.commit, queue_eq_survivors, ← replay_eq]
  refine ⟨rfl, committed, ?_, ?_, fun front link => (exists_queued_iff h net front link).symm⟩
  · rw [Numbered.inOrder_eq]
    exact committed
  · have counted := length_performAll (h := h) net ((survivors h calls).map (pending net))
    rwa [← replay_eq, List.length_map] at counted

/-- After a clearing a link is asked for twice, taken back, and removed. -/
example : survivors .flat [.remove ⟨Sample.outer, Sample.other⟩, .clear,
    .create ⟨Sample.outer, Sample.other⟩, .create ⟨Sample.inner, Sample.other⟩,
    .create ⟨Sample.outer, Sample.other⟩, .remove ⟨Sample.outer, Sample.other⟩,
    .remove ⟨Sample.outer, Sample.other⟩] =
      [.clear, .create ⟨Sample.inner, Sample.other⟩, .remove ⟨Sample.outer, Sample.other⟩] := by
  rfl

end BatchCall

end Workplan
