/-
# Workplan.Proofs.LinkTable — a network is a plain table of links

Without its index and the order of its links, a network is a table that tells for every key whether
there is a link and what it asks. Whatever can be done to a network can be said of the table alone:
links are put in, dropped and amended key by key, and the search that a new link has to pass is a
walk over the keys of the table.

* `isLooping_iff_loops`, `validate_iff_admits` — what a network decides, its table tells;
* `Realizes.perform` — every edit does to a network what it does to the table;
* `run_shows_table` — so, over any hierarchy and after any edits, the index and all the answers of
  a network are those that belong to the table.
-/
import Mathlib.Logic.Function.Basic
import Workplan.Proofs.LinkEdits
import Workplan.Proofs.LinkQueries

namespace Workplan

set_option autoImplicit false

/-- The link with each key, if there is one. -/
abbrev LinkTable := LinkKey → Option Link

namespace LinkTable

def empty : LinkTable := fun _ => none

/-- Puts a link in, in the place of one with the same key. -/
def put (table : LinkTable) (link : Link) : LinkTable :=
  Function.update table link.key (some link)

def drop (table : LinkTable) (key : LinkKey) : LinkTable :=
  Function.update table key none

/-- Drops every link that has the task at one of its ends. -/
def dropOf (table : LinkTable) (task : TaskId) : LinkTable :=
  fun key => if key.touches task then none else table key

def amend (table : LinkTable) (key : LinkKey) (f : Link → Link) : LinkTable :=
  Function.update table key ((table key).map f)

/-! ## Which links a table admits -/

/-- Where a walk that looks for a loop may stop: where it started, at the tasks of the hierarchy,
and at those that wait for some other. -/
def OnWay (h : Hierarchy) (table : LinkTable) (start task : TaskId) : Prop :=
  task = start ∨ task ∈ h.tasks ∨ ∃ dependee, (table ⟨task, dependee⟩).isSome

/-- The stops of the walk: it goes down into what it entered, along links and up to containers. -/
inductive Walks (h : Hierarchy) (table : LinkTable) (start : TaskId) : Stop → Prop where
  | start : Walks h table start ⟨start, .entered⟩
  | nested {task child : TaskId} : Walks h table start ⟨task, .entered⟩ → child ∈ h.nested task →
      OnWay h table start child → Walks h table start ⟨child, .entered⟩
  | link {task dependant : TaskId} {arrival : Arrival} : Walks h table start ⟨task, arrival⟩ →
      (table ⟨dependant, task⟩).isSome → Walks h table start ⟨dependant, .entered⟩
  | container {task container : TaskId} {arrival : Arrival} :
      Walks h table start ⟨task, arrival⟩ → h.container task = some container →
      OnWay h table start container → Walks h table start ⟨container, .climbed⟩

/-- A link with the key would close a loop. -/
def Loops (h : Hierarchy) (table : LinkTable) (key : LinkKey) : Prop :=
  ∃ stop, Walks h table key.dependant stop ∧ Network.reaches h key.dependee stop = true

/-- A link with the key may be put in. -/
structure Admits (h : Hierarchy) (table : LinkTable) (key : LinkKey) : Prop where
  isNew : table key = none
  dependant : h.knows key.dependant = true
  dependee : h.knows key.dependee = true
  apart : Network.checkPair h key = .ok ()
  noLoop : ¬ Loops h table key

/-! ## Edits -/

open scoped Classical in
/-- Puts a link in if it is admitted. -/
noncomputable def add (h : Hierarchy) (table : LinkTable) (link : Link) : LinkTable :=
  if Admits h table link.key then table.put link else table

/-- Makes one queued edit. -/
noncomputable def pending (h : Hierarchy) (table : LinkTable) : Pending → LinkTable
  | .add link => table.add h link
  | .remove key => table.drop key
  | .clear => empty

open scoped Classical in
/-- Puts in the links that tokens describe, up to the first that is not admitted. -/
noncomputable def addTokens (h : Hierarchy) (dependant : TaskId) :
    LinkTable → List Predecessor → LinkTable
  | table, [] => table
  | table, token :: rest =>
    if Admits h table ⟨dependant, token.dependee⟩ then
      addTokens h dependant (table.put (token.link dependant)) rest
    else table

/-- Makes an edit. A batch fills its queue without a look at the links, so it reads nothing but the
defaults. -/
noncomputable def perform (h : Hierarchy) (defaults : LinkDefaults) (table : LinkTable) :
    LinkEdit → LinkTable
  | .add link => table.add h link
  | .create key =>
    table.add h { key, relation := defaults.relation, hardness := defaults.hardness }
  | .remove key => table.drop key
  | .detach task => table.dropOf task
  | .clear => empty
  | .setRelation key relation => table.amend key fun link => { link with relation }
  | .setLag key lag => table.amend key fun link => { link with lag }
  | .setHardness key hardness => table.amend key fun link => { link with hardness }
  | .batch calls commits =>
    if commits then
      (calls.foldl (BatchCall.queue h (.empty defaults)) {}).queue.foldl (pending h) table
    else table
  | .predecessors dependant tokens => addTokens h dependant table tokens
  | .records list =>
    match list.mapM Record.link with
    | .error _ => table
    | .ok links => (Record.queueAll h links {}).1.queue.foldl (pending h) table

/-- The table after edits in order. -/
noncomputable def run (h : Hierarchy) (defaults : LinkDefaults) (edits : List LinkEdit) :
    LinkTable :=
  edits.foldl (perform h defaults) empty

end LinkTable

namespace Network

variable {h : Hierarchy} {net : Network}

/-! ## What a network decides -/

theorem onWay_iff {start : TaskId} {stop : Stop} :
    LinkTable.OnWay h net.find? start stop.task ↔ stop ∈ places h net start := by
  have waits : (∃ link ∈ net.links, link.dependant = stop.task) ↔
      ∃ dependee, (net.find? ⟨stop.task, dependee⟩).isSome := by
    constructor
    · rintro ⟨link, member, same⟩
      refine ⟨link.dependee, ?_⟩
      rw [← same]
      exact contains_of_mem member
    · rintro ⟨dependee, there⟩
      obtain ⟨link, member, key⟩ := contains_iff.mp there
      exact ⟨link, member, by rw [Link.dependant, key]⟩
  rw [mem_places, waits, LinkTable.OnWay]

theorem within_iff_walks {start : TaskId} {stop : Stop} :
    Reach.Within (nextStops h net) (places h net start) [⟨start, .entered⟩] stop ↔
      LinkTable.Walks h net.find? start stop := by
  constructor
  · intro within
    induction within with
    | start waits _ =>
      obtain rfl := List.mem_singleton.mp waits
      exact .start
    | @step place following _ leads isOpen ih =>
      obtain ⟨task, arrival⟩ := place
      obtain ⟨next, arrivalNext⟩ := following
      rcases follows_iff.mp leads with ⟨entered, nested, arrives⟩ | ⟨there, arrives⟩ |
        ⟨found, arrives⟩ <;> simp only at arrives <;> subst arrives
      · simp only at entered
        subst entered
        exact .nested ih nested (onWay_iff.mpr isOpen)
      · exact .link ih there
      · exact .container ih found (onWay_iff.mpr isOpen)
  · intro walks
    induction walks with
    | start => exact .start (List.mem_singleton.mpr rfl) (onWay_iff.mp (.inl rfl))
    | nested _ nested onWay ih =>
      exact .step ih (follows_iff.mpr (.inl ⟨rfl, nested, rfl⟩)) (onWay_iff.mp onWay)
    | link _ there ih =>
      exact .step ih (follows_link there) (onWay_iff.mp (.inr (.inr ⟨_, there⟩)))
    | container _ found onWay ih =>
      exact .step ih (follows_container found) (onWay_iff.mp onWay)

theorem isLooping_iff_loops {key : LinkKey} :
    net.isLooping h key = true ↔ LinkTable.Loops h net.find? key := by
  simp only [isLooping_iff_exists_within, within_iff_walks]
  rfl

theorem validate_iff_admits {key : LinkKey} :
    net.validate h key = .ok () ↔ LinkTable.Admits h net.find? key := by
  rw [validate_eq_ok_iff, contains_eq_isSome, Option.isSome_eq_false_iff, Option.isNone_iff_eq_none,
    ← Bool.not_eq_true (net.isLooping h key), isLooping_iff_loops]
  constructor
  · rintro ⟨isNew, dependant, dependee, apart, noLoop⟩
    exact ⟨isNew, dependant, dependee, apart, noLoop⟩
  · rintro ⟨isNew, dependant, dependee, apart, noLoop⟩
    exact ⟨isNew, dependant, dependee, apart, noLoop⟩

/-! ## Edits -/

/-- A batch asks its network for nothing but the defaults. -/
theorem queue_eq (h : Hierarchy) (net : Network) :
    BatchCall.queue h net = BatchCall.queue h (.empty net.defaults) := by
  funext batch call
  cases call <;> rfl

/-- The network holds the links of the table, and its new links ask what the defaults say. -/
structure Realizes (net : Network) (defaults : LinkDefaults) (table : LinkTable) : Prop where
  find? : net.find? = table
  defaults : net.defaults = defaults

theorem realizes_self (net : Network) : net.Realizes net.defaults net.find? := ⟨rfl, rfl⟩

theorem realizes_empty (defaults : LinkDefaults) : (empty defaults).Realizes defaults .empty :=
  ⟨rfl, rfl⟩

namespace Realizes

variable {defaults : LinkDefaults} {table : LinkTable}

theorem insertLink (realizes : net.Realizes defaults table) (link : Link) :
    (net.insertLink link).Realizes defaults (table.put link) := by
  obtain ⟨rfl, rfl⟩ := realizes
  refine ⟨funext fun key => ?_, rfl⟩
  rw [find?_insertLink, LinkTable.put, Function.update_apply]
  simp only [eq_comm]

theorem eraseLink (realizes : net.Realizes defaults table) (key : LinkKey) :
    (net.eraseLink key).Realizes defaults (table.drop key) := by
  obtain ⟨rfl, rfl⟩ := realizes
  refine ⟨funext fun other => ?_, rfl⟩
  rw [find?_eraseLink, LinkTable.drop, Function.update_apply]

theorem updateLink (realizes : net.Realizes defaults table) (key : LinkKey) (f : Link → Link)
    (keeps : ∀ link, (f link).key = link.key) :
    (net.updateLink key f keeps).Realizes defaults (table.amend key f) := by
  obtain ⟨rfl, rfl⟩ := realizes
  refine ⟨funext fun other => ?_, rfl⟩
  rw [LinkTable.amend, Function.update_apply]
  refine (Catalog.find?_update net.links key f keeps other).trans ?_
  split
  · rename_i same
    rw [same]
    rfl
  · rfl

theorem add_of_admits (realizes : net.Realizes defaults table) (link : Link)
    (admits : table.Admits h link.key) :
    net.add h link = ⟨.ok link, net.insertLink link, [.added link]⟩ := by
  obtain ⟨rfl, rfl⟩ := realizes
  exact add_of_admitted (validate_iff_admits.mpr admits)

theorem add_of_not_admits (realizes : net.Realizes defaults table) (link : Link)
    (refuses : ¬ table.Admits h link.key) :
    ∃ refusal, net.add h link = ⟨.error refusal, net, []⟩ := by
  obtain ⟨rfl, rfl⟩ := realizes
  rcases add_cases h net link with ⟨admitted, -⟩ | ⟨refusal, -, refused⟩
  · exact absurd (validate_iff_admits.mp admitted) refuses
  · exact ⟨refusal, refused⟩

theorem add (realizes : net.Realizes defaults table) (link : Link) :
    (net.add h link).state.Realizes defaults (table.add h link) := by
  unfold LinkTable.add
  split
  · rename_i admits
    rw [realizes.add_of_admits link admits]
    exact realizes.insertLink link
  · rename_i refuses
    obtain ⟨_, refused⟩ := realizes.add_of_not_admits link refuses
    rw [refused]
    exact realizes

theorem remove (realizes : net.Realizes defaults table) (key : LinkKey) :
    (net.remove key).state.Realizes defaults (table.drop key) := by
  unfold Network.remove
  split
  · rename_i missing
    have same : table.drop key = table := by
      rw [LinkTable.drop, ← missing, realizes.find?, Function.update_eq_self]
    rw [same]
    exact realizes
  · exact realizes.eraseLink key

theorem removeAll (realizes : net.Realizes defaults table) (keys : List LinkKey) :
    (net.removeAll keys).state.Realizes defaults fun key =>
      if key ∈ keys then none else table key := by
  induction keys generalizing net table with
  | nil => simpa [Network.removeAll] using realizes
  | cons first rest ih =>
    have removed := ih (realizes.remove first)
    refine ⟨removed.find?.trans (funext fun key => ?_), removed.defaults⟩
    by_cases later : key ∈ rest <;> by_cases same : key = first <;>
      simp [LinkTable.drop, later, same]

theorem detach (realizes : net.Realizes defaults table) (task : TaskId) :
    (net.detach task).state.Realizes defaults (table.dropOf task) := by
  have removed := realizes.removeAll ((net.linksOf task).map Link.key)
  refine ⟨removed.find?.trans (funext fun key => ?_), removed.defaults⟩
  rw [LinkTable.dropOf, ← realizes.find?]
  cases found : net.find? key with
  | none => simp
  | some link =>
    have key_eq := key_of_find? found
    -- The removed keys come from the index, which tells of every link that is there.
    have told : key ∈ (net.linksOf task).map Link.key ↔ key.touches task = true := by
      simp only [List.mem_map, mem_linksOf]
      constructor
      · rintro ⟨other, ⟨-, touches⟩, rfl⟩
        exact touches
      · intro touches
        exact ⟨link, ⟨key_eq.symm ▸ found, key_eq.symm ▸ touches⟩, key_eq⟩
    simp only [told]

theorem amend (realizes : net.Realizes defaults table) (key : LinkKey) (f : Link → Link)
    {keeps : ∀ link, (f link).key = link.key} {tell : Link → List Change} :
    (net.amend key f keeps tell).state.Realizes defaults (table.amend key f) := by
  unfold Network.amend
  split
  · rename_i missing
    have same : table.amend key f = table := by
      rw [LinkTable.amend, ← realizes.find?, missing, Option.map_none, ← missing,
        Function.update_eq_self]
    rw [same]
    exact realizes
  · exact realizes.updateLink key f keeps

theorem performPending (realizes : net.Realizes defaults table) (pending : Pending) :
    (Batch.perform h net pending).state.Realizes defaults (table.pending h pending) := by
  cases pending with
  | add link =>
    have added := realizes.add (h := h) link
    simp only [Batch.perform]
    split <;> exact added
  | remove key => exact realizes.remove key
  | clear => exact ⟨rfl, realizes.defaults⟩

theorem performAll (realizes : net.Realizes defaults table) (queue : List Pending) :
    (Batch.performAll h net queue).state.Realizes defaults
      (queue.foldl (LinkTable.pending h) table) := by
  induction queue generalizing net table with
  | nil => exact realizes
  | cons pending rest ih => exact ih (realizes.performPending pending)

theorem applyPredecessors (realizes : net.Realizes defaults table) (dependant : TaskId)
    (tokens : List Predecessor) :
    (Predecessor.apply h net dependant tokens).state.Realizes defaults
      (table.addTokens h dependant tokens) := by
  induction tokens generalizing net table with
  | nil => exact realizes
  | cons token rest ih =>
    unfold LinkTable.addTokens Predecessor.apply
    by_cases admits : table.Admits h ⟨dependant, token.dependee⟩
    · have known : h.knows token.dependee = true := admits.dependee
      have added := realizes.add_of_admits (token.link dependant) admits
      simp only [if_pos admits, known, Bool.not_true, Bool.false_eq_true, if_false, added]
      exact ih (realizes.insertLink (token.link dependant))
    · rw [if_neg admits]
      split
      · exact realizes
      · obtain ⟨_, refused⟩ := realizes.add_of_not_admits (token.link dependant) admits
        rw [refused]
        exact realizes

/-- Every edit of the links, whatever it answers. -/
theorem perform (realizes : net.Realizes defaults table) (edit : LinkEdit) :
    (edit.perform h net).state.Realizes defaults (table.perform h defaults edit) := by
  obtain ⟨rfl, rfl⟩ := realizes
  have realizes := net.realizes_self
  cases edit with
  | add link => exact realizes.add link
  | create key => exact realizes.add (net.newLink key)
  | remove key => exact realizes.remove key
  | detach task => exact realizes.detach task
  | clear => exact ⟨rfl, rfl⟩
  | setRelation key relation => exact realizes.amend key _
  | setLag key lag => exact realizes.amend key _
  | setHardness key hardness => exact realizes.amend key _
  | batch calls commits =>
    simp only [LinkEdit.perform, LinkTable.perform, ← queue_eq]
    split
    · exact realizes.performAll _
    · exact realizes
  | predecessors dependant tokens => exact realizes.applyPredecessors dependant tokens
  | records list =>
    cases decoded : list.mapM Record.link with
    | error reason =>
      simp only [LinkEdit.perform, LinkTable.perform, Record.restore, decoded]
      exact realizes
    | ok links =>
      simp only [LinkEdit.perform, LinkTable.perform, Record.restore, decoded]
      exact realizes.performAll _

end Realizes

theorem realizes_run (h : Hierarchy) (defaults : LinkDefaults) (edits : List LinkEdit) :
    (LinkEdit.run h (empty defaults) edits).Realizes defaults (LinkTable.run h defaults edits) := by
  have steps : ∀ (net : Network) (table : LinkTable), net.Realizes defaults table →
      (LinkEdit.run h net edits).Realizes defaults
        (edits.foldl (LinkTable.perform h defaults) table) := by
    induction edits with
    | nil => exact fun net table realizes => realizes
    | cons edit rest ih => exact fun net table realizes => ih _ _ (realizes.perform edit)
  exact steps _ _ (realizes_empty defaults)

/-! ## Answers -/

/-- The index and the answers of a network are those of the table. -/
structure Shows (net : Network) (table : LinkTable) : Prop where
  find? : ∀ key, net.find? key = table key
  /-- Both ends of every link, each once, and nothing else. -/
  index : net.index.entries.Perm (net.toList.flatMap fun link => link.key.ends)
  mem_toList : ∀ link, link ∈ net.toList ↔ table link.key = some link
  sorted_toList : net.toList.Pairwise fun a b => a.key < b.key
  mem_asDependant : ∀ task link,
    link ∈ net.asDependant task ↔ table link.key = some link ∧ link.dependant = task
  sorted_asDependant : ∀ task, (net.asDependant task).Pairwise fun a b => a.dependee < b.dependee
  mem_asDependee : ∀ task link,
    link ∈ net.asDependee task ↔ table link.key = some link ∧ link.dependee = task
  sorted_asDependee : ∀ task, (net.asDependee task).Pairwise fun a b => a.dependant < b.dependant
  linksOf : ∀ task, net.linksOf task = net.asDependant task ++ net.asDependee task
  nodup_linksOf : ∀ task, (net.linksOf task).Nodup

theorem Realizes.shows {defaults : LinkDefaults} {table : LinkTable}
    (realizes : net.Realizes defaults table)
    (apart : ∀ key, net.contains key = true → key.dependant ≠ key.dependee) :
    net.Shows table := by
  obtain ⟨rfl, rfl⟩ := realizes
  exact {
    find? := fun _ => rfl
    index := net.index_perm
    mem_toList := fun _ => Network.mem_toList
    sorted_toList := net.sorted_toList
    mem_asDependant := fun _ _ => Network.mem_asDependant
    sorted_asDependant := net.sorted_asDependant
    mem_asDependee := fun _ _ => Network.mem_asDependee
    sorted_asDependee := net.sorted_asDependee
    linksOf := net.linksOf_eq
    nodup_linksOf := Network.nodup_linksOf apart }

/-- Whatever the hierarchy, and whichever edits are made on an empty network, with success or
without, the network and its index are at every time the plain table of the links made so far. The
links of a task as a dependant are those of the table, by dependee, as a dependee by dependant; all
its links are the two lists in this order, none twice; and all links are told by key. -/
theorem run_shows_table (h : Hierarchy) (defaults : LinkDefaults) (edits : List LinkEdit) :
    (LinkEdit.run h (empty defaults) edits).Shows (LinkTable.run h defaults edits) :=
  (realizes_run h defaults edits).shows fun key there =>
    (checkPair_eq_ok_iff.mp (checked_run h defaults edits key there)).1

/-- At both ends of the numbers of tasks. -/
example : ((LinkEdit.run .flat (.empty {}) [.create ⟨.greatest, .least⟩,
    .create ⟨.least, Sample.other⟩]).linksOf .least).map Link.key =
      [⟨.least, Sample.other⟩, ⟨.greatest, .least⟩] := by
  decide

end Network

end Workplan
