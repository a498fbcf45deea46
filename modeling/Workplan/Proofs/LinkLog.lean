/-
# Workplan.Proofs.LinkLog — the changes that are told are a log of the links

Whoever puts in, drops and replaces links as an edit tells it goes with the edit from the links before it
to those after it. `Follows` says so of changes and two tables, and that each change is possible where it
is told: a link is added where there was none, and removed or changed where there was one. Two edits keep
no such log. Clearing tells nothing of the links that go, and setting how strictly a link is held tells
nothing either.

* `Follows.of_added`, `Logged.gains` — what changes that only add say of the links;
* `Logs.andThen`, `Logs.map` — edits made of edits;
* `LinkEdit.logs` — all edits of the links but the two, whatever they answer.
-/
import Workplan.Proofs.BatchQueues

namespace Workplan

set_option autoImplicit false

/-- The change can happen to the table: a link is added that is not there, removed or changed one that
is. -/
def Change.Fits (table : LinkTable) : Change → Prop
  | .added link => table link.key = none
  | .removed link | .changed link => (table link.key).isSome

namespace LinkTable

/-- The table after a change. -/
def hear (table : LinkTable) : Change → LinkTable
  | .added link | .changed link => table.put link
  | .removed link => table.drop link.key

/-- After a change the table knows what is told of the link, whatever it knew before. -/
theorem hear_link (table other : LinkTable) (change : Change) :
    table.hear change change.link.key = other.hear change change.link.key := by
  cases change <;> simp [hear, put, drop, Change.link]

theorem hear_of_ne (table : LinkTable) {change : Change} {key : LinkKey}
    (other : change.link.key ≠ key) : table.hear change key = table key := by
  cases change <;> exact Function.update_of_ne (Ne.symm other) _ _

/-- The changes can happen one after another, and lead from one table to the other. -/
inductive Follows : LinkTable → List Change → LinkTable → Prop where
  | nil {table : LinkTable} : Follows table [] table
  | cons {table final : LinkTable} {change : Change} {rest : List Change} (fits : change.Fits table)
      (later : Follows (table.hear change) rest final) : Follows table (change :: rest) final

variable {table final : LinkTable} {changes : List Change}

theorem Follows.one {change : Change} (fits : change.Fits table) (same : table.hear change = final) :
    Follows table [change] final := by
  subst same
  exact .cons fits .nil

theorem Follows.append {middle : LinkTable} {more : List Change}
    (first : Follows table changes middle) (second : Follows middle more final) :
    Follows table (changes ++ more) final := by
  induction first with
  | nil => exact second
  | cons fits _ ih => exact .cons fits (ih second)

theorem Follows.eq_of_nil (follows : Follows table [] final) : final = table := by
  cases follows
  rfl

/-- Where changes only add links, there was none with the key of any of them, no two of them have one
key, and they are what the later table has more. -/
theorem Follows.of_added {made : List Link} (follows : Follows table (made.map .added) final) :
    (made.map Link.key).Nodup ∧ (∀ link ∈ made, table link.key = none) ∧
      ∀ link, final link.key = some link ↔ table link.key = some link ∨ link ∈ made := by
  induction made generalizing table with
  | nil =>
    obtain rfl := follows.eq_of_nil
    simp
  | cons first rest ih =>
    cases follows with
    | cons isNew later =>
      change table first.key = none at isNew
      obtain ⟨distinct, missing, rows⟩ := ih later
      have apart : ∀ link ∈ rest, link.key ≠ first.key ∧ table link.key = none := by
        intro link member
        have free : table.put first link.key = none := missing link member
        have other : link.key ≠ first.key := by
          intro same
          simp [put, same] at free
        exact ⟨other, by rwa [put, Function.update_of_ne other] at free⟩
      refine ⟨List.nodup_cons.mpr ⟨?_, distinct⟩, ?_, fun link => (rows link).trans ?_⟩
      · intro member
        obtain ⟨link, inside, same⟩ := List.mem_map.mp member
        exact (apart link inside).1 same
      · exact List.forall_mem_cons.mpr ⟨isNew, fun link member => (apart link member).2⟩
      · change table.put first link.key = some link ∨ _ ↔ _
        by_cases same : link.key = first.key
        · simp [put, same, isNew, eq_comm]
        · have differ : link ≠ first := fun equal => same (congrArg Link.key equal)
          simp [put, Function.update_of_ne same, differ]

end LinkTable

/-! ## What the edits tell -/

/-- The changes lead from the links before them to those after them, and new links ask what they asked
before. -/
structure Network.Logged (net : Network) (changes : List Change) (after : Network) : Prop where
  follows : LinkTable.Follows net.find? changes after.find?
  defaults : after.defaults = net.defaults

/-- The later network has the links of the earlier one and those listed. There was none with the key of
any of these, and no two of them have one key. -/
structure Network.Gains (net : Network) (made : List Link) (after : Network) : Prop where
  mem_links : ∀ link, link ∈ after.links ↔ link ∈ net.links ∨ link ∈ made
  missing : ∀ link ∈ made, net.contains link.key = false
  distinct : (made.map Link.key).Nodup

/-- Whoever is told of nothing but additions is told of what there is more. -/
theorem Network.Logged.gains {net after : Network} {made : List Link}
    (logged : net.Logged (made.map .added) after) : net.Gains made after := by
  obtain ⟨distinct, missing, rows⟩ := logged.follows.of_added
  refine ⟨fun link => ?_, fun link member => ?_, distinct⟩
  · rw [mem_links_iff, mem_links_iff]
    exact rows link
  · rw [contains_eq_isSome, missing link member]
    rfl

/-- What the edit tells is what it does to the links. -/
def Edited.Logs {α : Type} (net : Network) (edited : Edited Network α) : Prop :=
  net.Logged edited.changes edited.state

namespace Edited

variable {α β : Type} {net : Network}

theorem Logs.unchanged (answer : α) (net : Network) : Logs net ⟨answer, net, []⟩ :=
  ⟨.nil, rfl⟩

theorem Logs.map {edited : Edited Network α} (logs : edited.Logs net) (f : α → β) :
    (edited.map f).Logs net :=
  logs

theorem Logs.andThen {first : Edited Network α} {second : α → Network → Edited Network β}
    (logs : first.Logs net) (last : ∀ answer net, (second answer net).Logs net) :
    (first.andThen second).Logs net :=
  have later := last first.answer first.state
  ⟨logs.follows.append later.follows, later.defaults.trans logs.defaults⟩

end Edited

section Edits

variable (h : Hierarchy) (net : Network)

theorem Network.logs_add (link : Link) : (net.add h link).Logs net := by
  rcases add_cases h net link with ⟨admitted, added⟩ | ⟨_, -, refused⟩
  · rw [added]
    refine ⟨.one (validate_iff_admits.mp admitted).isNew ?_, rfl⟩
    exact (net.realizes_self.insertLink link).find?.symm
  · rw [refused]
    exact .unchanged _ net

theorem Network.logs_remove (key : LinkKey) : (net.remove key).Logs net := by
  unfold remove
  split
  · exact .unchanged _ net
  · rename_i link found
    obtain rfl := key_of_find? found
    refine ⟨.one (Option.isSome_of_eq_some found) ?_, rfl⟩
    exact (net.realizes_self.eraseLink link.key).find?.symm

theorem Network.logs_removeAll (keys : List LinkKey) : (net.removeAll keys).Logs net := by
  induction keys generalizing net with
  | nil => exact .unchanged _ net
  | cons key rest ih => exact (net.logs_remove key).andThen fun _ net => (ih net).map _

theorem Network.logs_amend (key : LinkKey) {f : Link → Link}
    {keeps : ∀ link, (f link).key = link.key} :
    (net.amend key f keeps fun link => [.changed link]).Logs net := by
  unfold amend
  split
  · exact .unchanged _ net
  · rename_i link found
    obtain rfl := key_of_find? found
    refine ⟨.one ?_ ?_, rfl⟩
    · exact Option.isSome_of_eq_some ((keeps link).symm ▸ found)
    · rw [(net.realizes_self.updateLink link.key f keeps).find?, LinkTable.hear, LinkTable.put,
        LinkTable.amend, keeps, found, Option.map_some]

theorem Batch.logs_perform {pending : Pending} (noClear : pending ≠ .clear) :
    (Batch.perform h net pending).Logs net := by
  cases pending with
  | add link =>
    have added := net.logs_add h link
    simp only [perform]
    split <;> exact added
  | remove key => exact net.logs_remove key
  | clear => contradiction

theorem Batch.logs_performAll {queue : List Pending} (noClear : .clear ∉ queue) :
    (Batch.performAll h net queue).Logs net := by
  induction queue generalizing net with
  | nil => exact .unchanged _ net
  | cons pending rest ih =>
    obtain ⟨first, later⟩ := not_or.mp (List.mem_cons.not.mp noClear)
    exact (logs_perform h net (Ne.symm first)).andThen fun _ net => (ih net later).map _

theorem Predecessor.logs_apply (dependant : TaskId) (tokens : List Predecessor) :
    (Predecessor.apply h net dependant tokens).Logs net := by
  induction tokens generalizing net with
  | nil => exact .unchanged _ net
  | cons token rest ih =>
    simp only [Predecessor.apply]
    split
    · exact .unchanged _ net
    · refine (net.logs_add h _).andThen fun answer net => ?_
      cases answer with
      | error => exact .unchanged _ net
      | ok => exact (ih net).map _

theorem Record.logs_restore (records : List Record) :
    (Record.restore h net records).Logs net := by
  unfold restore
  split
  · exact .unchanged _ net
  · rename_i links _
    have noClear : .clear ∉ (queueAll h links {}).1.queue := by
      simp [Record.queueAll_eq h net, BatchCall.clear_mem_queueAll]
    exact (Batch.logs_performAll h net noClear).map _

namespace LinkEdit

/-- The edit clears the links, at once or in a batch that is committed. -/
def Clears : LinkEdit → Prop
  | .clear => True
  | .batch calls commits => commits = true ∧ .clear ∈ calls
  | _ => False

/-- The edit sets how strictly the link is held. -/
def Hardens (key : LinkKey) : LinkEdit → Prop
  | .setHardness other _ => other = key
  | _ => False

/-- Every edit tells exactly what it does to the links, unless it clears them or sets how strictly one is
held. -/
theorem logs {edit : LinkEdit} (kept : ¬ edit.Clears) (other : ∀ key, ¬ edit.Hardens key) :
    (edit.perform h net).Logs net := by
  cases edit with
  | add link => exact (net.logs_add h link).map _
  | create key => exact (net.logs_add h (net.newLink key)).map _
  | remove key => exact (net.logs_remove key).map _
  | detach task => exact (net.logs_removeAll _).map _
  | clear => exact absurd trivial kept
  | setRelation key relation => exact (net.logs_amend key).map _
  | setLag key lag => exact (net.logs_amend key).map _
  | setHardness key hardness => exact absurd rfl (other key)
  | batch calls commits =>
    simp only [perform]
    split
    · rename_i commits
      refine (Batch.logs_performAll h net ?_).map _
      exact (BatchCall.clear_mem_queueAll calls).not.mpr fun cleared => kept ⟨commits, cleared⟩
    · exact .unchanged _ net
  | predecessors dependant tokens => exact (Predecessor.logs_apply h net dependant tokens).map _
  | records list => exact (Record.logs_restore h net list).map _

end LinkEdit

end Edits

end Workplan
