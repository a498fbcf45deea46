/-
# Workplan.Proofs.BatchQueues — what waits in a batch

`Queues` tells all that one call can do to the queue of a batch: start it over, put an edit at its
end, take an addition out of it, or nothing. What waits after many calls follows call by call:

* `distinct_queueAll` — no two of the waiting additions make the same link;
* `clear_mem_queueAll`, `remove_mem_queueAll` — which clearings and removals wait;
* `find?_performAll` — what a queue without an addition of a link does to that link.

Removing a link whose addition waits takes the addition back and queues nothing, whether or not the
network has the link. So a removal as the last call about a link does not always win: it does if
the batch was cleared or some removal of the link found nothing to take back, and otherwise the
link is as it was before the batch (`last_removal_spec`, `last_removal_lost`).
-/
import Workplan.Proofs.LinkTable

namespace Workplan

set_option autoImplicit false

namespace BatchCall

/-- The link that the call asks to add. -/
def link? (net : Network) : BatchCall → Option Link
  | add link => some link
  | create key => some (net.newLink key)
  | remove _ | clear => none

/-- What a call does to a queue. -/
inductive Queues (h : Hierarchy) (net : Network) : BatchCall → List Pending → List Pending → Prop where
  | clear {queue : List Pending} : Queues h net .clear queue [.clear]
  | remove {key : LinkKey} {queue : List Pending} : queue.any (Pending.adds key) = false →
      Queues h net (.remove key) queue (queue ++ [.remove key])
  /-- The latest addition of the link is taken back. -/
  | takeBack {link : Link} {front back : List Pending} :
      back.any (Pending.adds link.key) = false →
      Queues h net (.remove link.key) (front ++ .add link :: back) (front ++ back)
  | add {call : BatchCall} {link : Link} {queue : List Pending} : call.link? net = some link →
      Network.checkPair h link.key = .ok () → queue.any (Pending.adds link.key) = false →
      Queues h net call queue (queue ++ [.add link])
  | refuse {call : BatchCall} {link : Link} {queue : List Pending} : call.link? net = some link →
      Network.checkPair h link.key ≠ .ok () ∨ queue.any (Pending.adds link.key) = true →
      Queues h net call queue queue

/-- The batch after calls on a new one. -/
def queueAll (h : Hierarchy) (net : Network) (calls : List BatchCall) : Batch :=
  calls.foldl (BatchCall.queue h net) {}

/-- The call is neither about the link nor a clearing. -/
def Spares (key : LinkKey) : BatchCall → Prop
  | add link => link.key ≠ key
  | create other | remove other => other ≠ key
  | clear => False

/-- Every removal of the link took back an addition of it that was waiting. -/
def OnlyTakesBack (h : Hierarchy) (net : Network) (calls : List BatchCall) (key : LinkKey) : Prop :=
  ∀ front, front ++ [.remove key] <+: calls →
    (queueAll h net front).queue.any (Pending.adds key) = true

end BatchCall

/-! ## One call -/

theorem Pending.adds_iff {key : LinkKey} {pending : Pending} :
    pending.adds key = true ↔ ∃ link, pending = .add link ∧ link.key = key := by
  cases pending <;> simp [adds]

section Calls

variable (h : Hierarchy) (net : Network)

theorem Batch.queues_tryAdd (batch : Batch) {call : BatchCall} {link : Link}
    (asked : call.link? net = some link) :
    BatchCall.Queues h net call batch.queue (batch.tryAdd h link).queue := by
  unfold tryAdd add
  cases checked : Network.checkPair h link.key with
  | error refusal => exact .refuse asked (.inl (by simp [checked]))
  | ok =>
    by_cases waits : batch.queue.any (Pending.adds link.key) = true
    · simp only [if_pos waits]
      exact .refuse asked (.inr waits)
    · simp only [if_neg waits]
      exact .add asked checked (Bool.not_eq_true _ ▸ waits)

theorem Batch.queues_remove (batch : Batch) (key : LinkKey) :
    BatchCall.Queues h net (.remove key) batch.queue (batch.remove key).queue := by
  unfold remove
  split
  · rename_i waits
    obtain ⟨pending, member, adds⟩ := List.any_eq_true.mp waits
    obtain ⟨taken, later, earlier, none, addsTaken, split, rest⟩ :=
      List.exists_of_eraseP (List.mem_reverse.mpr member) adds
    obtain ⟨link, rfl, rfl⟩ := Pending.adds_iff.mp addsTaken
    have queue : batch.queue = earlier.reverse ++ .add link :: later.reverse := by
      rw [← List.reverse_reverse batch.queue, split]
      simp
    rw [rest, queue, List.reverse_append]
    refine .takeBack (List.any_eq_false.mpr fun other left => none other (List.mem_reverse.mp left))
  · rename_i none
    exact .remove (Bool.not_eq_true _ ▸ none)

theorem BatchCall.queues (batch : Batch) (call : BatchCall) :
    Queues h net call batch.queue (call.queue h net batch).queue := by
  cases call with
  | add link => exact batch.queues_tryAdd h net rfl
  | create key => exact batch.queues_tryAdd h net rfl
  | remove key => exact batch.queues_remove h net key
  | clear => exact .clear

end Calls

namespace BatchCall

variable {h : Hierarchy} {net : Network} {call : BatchCall} {queue next : List Pending}

theorem link?_clear_ne {link : Link} : clear.link? net ≠ some link := nofun

theorem link?_remove_ne {key : LinkKey} {link : Link} : (remove key).link? net ≠ some link := nofun

theorem Queues.clear_mem (queues : Queues h net call queue next) :
    .clear ∈ next ↔ .clear ∈ queue ∨ call = .clear := by
  cases queues with
  | clear => simp
  | remove => simp
  | takeBack => simp
  | add asked | refuse asked =>
    have other : call ≠ .clear := by
      rintro rfl
      exact link?_clear_ne asked
    simp [other]

theorem Queues.remove_mem (queues : Queues h net call queue next) (other : call ≠ .clear)
    {key : LinkKey} : .remove key ∈ next ↔
      .remove key ∈ queue ∨ call = .remove key ∧ queue.any (Pending.adds key) = false := by
  cases queues with
  | clear => exact absurd rfl other
  | @remove removed queue none =>
    by_cases same : removed = key
    · subst same
      simp [none]
    · simp [same, Ne.symm same]
  | @takeBack link front back =>
    by_cases same : link.key = key
    · simp [Pending.adds, same]
    · simp [same]
  | add asked | refuse asked =>
    have other : call ≠ .remove key := by
      rintro rfl
      exact link?_remove_ne asked
    simp [other]

/-- No two additions are of the same link. -/
def Distinct (queue : List Pending) : Prop :=
  queue.Pairwise fun a b => ∀ key, a.adds key = true → b.adds key = false

theorem Queues.distinct (queues : Queues h net call queue next) (distinct : Distinct queue) :
    Distinct next := by
  unfold Distinct at *
  cases queues with
  | clear => exact List.pairwise_singleton _ _
  | remove =>
    refine List.pairwise_append.mpr ⟨distinct, List.pairwise_singleton _ _, ?_⟩
    simp [Pending.adds]
  | takeBack =>
    exact distinct.sublist ((List.Sublist.refl _).append (List.sublist_cons_self _ _))
  | @add _ link _ _ _ none =>
    refine List.pairwise_append.mpr ⟨distinct, List.pairwise_singleton _ _, ?_⟩
    intro waiting member new isNew key adds
    obtain rfl := List.mem_singleton.mp isNew
    refine Bool.eq_false_iff.mpr fun same => ?_
    obtain rfl : link.key = key := by simpa [Pending.adds] using same
    exact List.any_eq_false.mp none waiting member adds
  | refuse => exact distinct

/-- After a removal no addition of the link is waiting. -/
theorem Queues.none_after_remove {key : LinkKey} (queues : Queues h net (.remove key) queue next)
    (distinct : Distinct queue) : next.any (Pending.adds key) = false := by
  cases queues with
  | remove none => simp [none, Pending.adds]
  | @takeBack link front back none =>
    obtain ⟨-, -, apart⟩ := List.pairwise_append.mp distinct
    have before : front.any (Pending.adds link.key) = false := by
      refine List.any_eq_false.mpr fun waiting member adds => ?_
      have other := apart waiting member _ List.mem_cons_self link.key adds
      simp [Pending.adds] at other
    rw [List.any_append, before, none]
    rfl
  | add asked => exact absurd asked link?_remove_ne
  | refuse asked => exact absurd asked link?_remove_ne

theorem Queues.none_after_spares {key : LinkKey} (queues : Queues h net call queue next)
    (spares : call.Spares key) (none : queue.any (Pending.adds key) = false) :
    next.any (Pending.adds key) = false := by
  cases queues with
  | clear => exact spares.elim
  | remove => simp [none, Pending.adds]
  | takeBack =>
    simp only [List.any_append, List.any_cons, Bool.or_eq_false_iff] at none ⊢
    exact ⟨none.1, none.2.2⟩
  | @add _ link _ asked _ _ =>
    have other : link.key ≠ key := by
      cases call with
      | add added =>
        obtain rfl := Option.some_inj.mp asked
        exact spares
      | create created =>
        obtain rfl := Option.some_inj.mp asked
        exact spares
      | remove => exact absurd asked link?_remove_ne
      | clear => exact spares.elim
    simp [none, Pending.adds, other]
  | refuse => exact none

/-! ## Many calls -/

theorem queueAll_concat (calls : List BatchCall) (call : BatchCall) :
    queueAll h net (calls ++ [call]) = call.queue h net (queueAll h net calls) := by
  simp [queueAll]

/-- What one call keeps holds after all. -/
theorem queueAll_induction {motive : List BatchCall → List Pending → Prop} (start : motive [] [])
    (step : ∀ calls call queue next, motive calls queue → Queues h net call queue next →
      motive (calls ++ [call]) next) (calls : List BatchCall) :
    motive calls (queueAll h net calls).queue := by
  induction calls using List.reverseRecOn with
  | nil => exact start
  | append_singleton calls call ih =>
    rw [queueAll_concat]
    exact step calls call _ _ ih (queues h net _ call)

theorem distinct_queueAll (calls : List BatchCall) : Distinct (queueAll h net calls).queue :=
  queueAll_induction (motive := fun _ queue => Distinct queue) .nil
    (fun _ _ _ _ distinct queues => queues.distinct distinct) calls

theorem clear_mem_queueAll (calls : List BatchCall) :
    .clear ∈ (queueAll h net calls).queue ↔ .clear ∈ calls := by
  refine queueAll_induction (motive := fun calls queue => .clear ∈ queue ↔ .clear ∈ calls)
    (by simp) (fun calls call queue next waits queues => ?_) calls
  rw [queues.clear_mem, waits, List.mem_append, List.mem_singleton, eq_comm]

/-- Without a clearing, a removal of the link waits unless every removal took an addition back. -/
theorem remove_mem_queueAll {calls : List BatchCall} (kept : .clear ∉ calls) (key : LinkKey) :
    .remove key ∈ (queueAll h net calls).queue ↔ ¬ OnlyTakesBack h net calls key := by
  induction calls using List.reverseRecOn with
  | nil => simp [queueAll, OnlyTakesBack]
  | append_singleton calls call ih =>
    obtain ⟨keptBefore, other⟩ : .clear ∉ calls ∧ call ≠ .clear := by
      simpa [not_or, eq_comm] using kept
    rw [queueAll_concat, (queues h net _ call).remove_mem other, ih keptBefore]
    -- The removals in a list that grew by one call are the earlier ones and perhaps that call.
    have last : OnlyTakesBack h net (calls ++ [call]) key ↔ OnlyTakesBack h net calls key ∧
        (call = .remove key → (queueAll h net calls).queue.any (Pending.adds key) = true) := by
      simp only [OnlyTakesBack, List.prefix_concat_iff]
      constructor
      · intro all
        refine ⟨fun front before => all front (.inr before), ?_⟩
        rintro rfl
        exact all calls (.inl rfl)
      · rintro ⟨before, atLast⟩ front (whole | inside)
        · obtain ⟨rfl, same⟩ := List.append_inj' whole rfl
          exact atLast (List.singleton_inj.mp same).symm
        · exact before front inside
    rw [last]
    by_cases same : call = .remove key <;> simp [same, imp_iff_not_or]

end BatchCall

/-- Queueing the links that records tell is adding them one after another. -/
theorem Record.queueAll_eq (h : Hierarchy) (net : Network) (links : List Link) :
    (Record.queueAll h links {}).1 = BatchCall.queueAll h net (links.map .add) := by
  have steps : ∀ batch, (Record.queueAll h links batch).1 =
      (links.map BatchCall.add).foldl (BatchCall.queue h net) batch := by
    induction links with
    | nil => exact fun batch => rfl
    | cons link rest ih =>
      intro batch
      simp only [queueAll, List.map_cons, List.foldl_cons, BatchCall.queue, Batch.tryAdd]
      cases batch.add h link with
      | ok grown => exact ih grown
      | error refusal => exact ih batch
  exact steps {}

/-! ## The last call about a link -/

section Commit

variable {h : Hierarchy} {key : LinkKey}

theorem Batch.find?_perform {pending : Pending} (none : pending.adds key = false) (net : Network) :
    (Batch.perform h net pending).state.find? key =
      if pending = .clear ∨ pending = .remove key then Option.none else net.find? key := by
  rw [(net.realizes_self.performPending pending).find?]
  cases pending with
  | add link =>
    have other : link.key ≠ key := by simpa [Pending.adds] using none
    simp only [LinkTable.pending, LinkTable.add, LinkTable.put]
    split <;> simp [Function.update_of_ne other.symm]
  | remove removed => simp [LinkTable.pending, LinkTable.drop, Function.update_apply, eq_comm]
  | clear => simp [LinkTable.pending, LinkTable.empty]

/-- Whatever their order, edits that do not add the link take it away if one of them removes it or
all links. -/
theorem Batch.find?_performAll {queue : List Pending}
    (none : queue.any (Pending.adds key) = false) (net : Network) :
    (Batch.performAll h net queue).state.find? key =
      if .clear ∈ queue ∨ .remove key ∈ queue then Option.none else net.find? key := by
  induction queue generalizing net with
  | nil => simp [performAll]
  | cons pending rest ih =>
    obtain ⟨first, later⟩ := Bool.or_eq_false_iff.mp none
    refine (ih later (perform h net pending).state).trans ?_
    rw [find?_perform first]
    have split : .clear ∈ pending :: rest ∨ .remove key ∈ pending :: rest ↔
        (.clear ∈ rest ∨ .remove key ∈ rest) ∨ pending = .clear ∨ pending = .remove key := by
      simp only [List.mem_cons, eq_comm (b := pending)]
      tauto
    by_cases now : pending = .clear ∨ pending = .remove key <;> simp only [split, now] <;> simp

namespace BatchCall

/-- After a removal, and calls that spare the link, no addition of it is waiting. -/
theorem none_after_last_removal (h : Hierarchy) (net : Network) (front : List BatchCall)
    {back : List BatchCall} (last : ∀ call ∈ back, call.Spares key) :
    (queueAll h net (front ++ .remove key :: back)).queue.any (Pending.adds key) = false := by
  induction back using List.reverseRecOn with
  | nil =>
    rw [queueAll_concat]
    exact (queues h net _ _).none_after_remove (distinct_queueAll front)
  | append_singleton back call ih =>
    have earlier := ih fun other member => last other (List.mem_append_left _ member)
    rw [← List.cons_append, ← List.append_assoc, queueAll_concat]
    exact (queues h net _ call).none_after_spares (last call (by simp)) earlier

/-- Let the last call about a link, after the last clearing if there is one, be a removal. After the
commit the link is gone if the batch was cleared, or if one of the removals found no addition of
the link to take back; otherwise the batch leaves the link as it was. -/
theorem last_removal_spec (h : Hierarchy) (net : Network) (front : List BatchCall) (key : LinkKey)
    (back : List BatchCall) (last : ∀ call ∈ back, call.Spares key) :
    let calls := front ++ .remove key :: back
    let committed := ((LinkEdit.batch calls true).perform h net).state
    (.clear ∈ calls ∨ ¬ OnlyTakesBack h net calls key → committed.find? key = none) ∧
    (.clear ∉ calls → OnlyTakesBack h net calls key → committed.find? key = net.find? key) := by
  intro calls committed
  have found : committed.find? key = if .clear ∈ (queueAll h net calls).queue ∨
      .remove key ∈ (queueAll h net calls).queue then none else net.find? key :=
    Batch.find?_performAll (none_after_last_removal h net front last) net
  -- A clearing makes it unimportant which removals still wait.
  have waits : .clear ∈ (queueAll h net calls).queue ∨ .remove key ∈ (queueAll h net calls).queue ↔
      .clear ∈ calls ∨ ¬ OnlyTakesBack h net calls key := by
    rw [clear_mem_queueAll]
    by_cases cleared : .clear ∈ calls
    · simp [cleared]
    · rw [remove_mem_queueAll cleared]
  refine ⟨fun wins => found.trans (if_pos (waits.mpr wins)), fun kept taken => ?_⟩
  exact found.trans (if_neg (waits.not.mpr (by simp [kept, taken])))

/-- The link of the sample, added again and removed, stays as it was; it is gone if it was removed
before that. -/
theorem last_removal_spec_for_link :
    let key : LinkKey := ⟨Sample.outer, Sample.other⟩
    let commit (calls : List BatchCall) :=
      ((LinkEdit.batch calls true).perform .flat Sample.network).state
    (commit [.create key, .remove key]).find? key = Sample.network.find? key ∧
    (commit [.remove key, .create key, .remove key, .create key.reversed]).find? key = none := by
  intro key commit
  have takenBack : OnlyTakesBack .flat Sample.network [.create key, .remove key] key := by
    rintro front ⟨rest, same⟩
    match front with
    | [] => simp at same
    | [first] =>
      obtain ⟨rfl, -⟩ := List.cons.inj same
      decide
    | _ :: _ :: _ => simp at same
  have queued : ¬ OnlyTakesBack .flat Sample.network
      [.remove key, .create key, .remove key, .create key.reversed] key := by
    intro all
    have first := all [] ⟨[.create key, .remove key, .create key.reversed], rfl⟩
    revert first
    decide
  have kept := last_removal_spec .flat Sample.network [.create key] key [] (List.forall_mem_nil _)
  have gone := last_removal_spec .flat Sample.network [.remove key, .create key] key
    [.create key.reversed] (by simp [Spares, key, LinkKey.reversed, Sample.outer, Sample.other])
  exact ⟨kept.2 (by simp) takenBack, gone.1 (.inr queued)⟩

/-- A removal that takes back an addition leaves the link that was there before. -/
theorem last_removal_lost :
    ¬ ∀ (h : Hierarchy) (edits : List LinkEdit) (front back : List BatchCall) (key : LinkKey),
      (∀ call ∈ back, call.Spares key) →
      let net := LinkEdit.run h (.empty {}) edits
      ((LinkEdit.batch (front ++ .remove key :: back) true).perform h net).state.contains key =
        false := by
  intro wins
  let key : LinkKey := ⟨Sample.outer, Sample.other⟩
  have gone := wins .flat [.create key] [.create key] [] key (List.forall_mem_nil _)
  revert gone
  decide

end BatchCall

end Commit

end Workplan
