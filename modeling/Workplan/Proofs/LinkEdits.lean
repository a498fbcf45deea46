/-
# Workplan.Proofs.LinkEdits — all that can be done to the links of a plan

`LinkEdit` lists what a caller may ask of a network: single edits, batches with the calls that fill
them, and the links of a task read from a text or from records. `perform` makes an edit, whatever it
answers. An edit takes links away, changes what they ask, or adds links that are admitted one by one
against the network as it then is. `Lasting` says of a property that these three keep it:

* `Lasting.performAll` — then so does a batch, with the additions that are refused;
* `Lasting.perform`, `Lasting.run` — and every edit, and every run of edits;
* `lasting_acyclic`, `lasting_fits`, `lasting_checked` — on a forest, links go on joining known tasks
  without a cycle, and on any hierarchy tasks that are not related;
* `Coherent.perform` — so a coherent plan stays coherent.
-/
import Workplan.Batch
import Workplan.Predecessor
import Workplan.Proofs.Admission
import Workplan.Record

namespace Workplan

set_option autoImplicit false

/-- A call on a batch that is not yet committed. -/
inductive BatchCall where
  | add (link : Link)
  /-- Adds a link that asks what the network's new links ask. -/
  | create (key : LinkKey)
  | remove (key : LinkKey)
  | clear

/-- What is asked of the links of a plan. -/
inductive LinkEdit where
  | add (link : Link)
  | create (key : LinkKey)
  | remove (key : LinkKey)
  | detach (task : TaskId)
  | clear
  | setRelation (key : LinkKey) (relation : Relation)
  | setLag (key : LinkKey) (lag : Lag)
  | setHardness (key : LinkKey) (hardness : Hardness)
  /-- A batch that is committed after its calls, or given up. -/
  | batch (calls : List BatchCall) (commits : Bool)
  | predecessors (dependant : TaskId) (tokens : List Predecessor)
  | records (list : List Record)

/-- Queues an addition; a refused one leaves the batch as it was. -/
def Batch.tryAdd (h : Hierarchy) (batch : Batch) (link : Link) : Batch :=
  match batch.add h link with
  | .ok grown => grown
  | .error _ => batch

/-- The batch after a call. -/
def BatchCall.queue (h : Hierarchy) (net : Network) (batch : Batch) : BatchCall → Batch
  | add link => batch.tryAdd h link
  | create key => batch.tryAdd h (net.newLink key)
  | remove key => batch.remove key
  | clear => batch.clear

/-- Makes an edit; the answer is forgotten, what a failed edit leaves is not. -/
def LinkEdit.perform (h : Hierarchy) (net : Network) : LinkEdit → Edited Network Unit
  | add link => (net.add h link).map fun _ => ()
  | create key => (net.add h (net.newLink key)).map fun _ => ()
  | remove key => (net.remove key).map fun _ => ()
  | detach task => (net.detach task).map fun _ => ()
  | clear => net.clear
  | setRelation key relation => (net.setRelation key relation).map fun _ => ()
  | setLag key lag => (net.setLag key lag).map fun _ => ()
  | setHardness key hardness => (net.setHardness key hardness).map fun _ => ()
  | batch calls commits =>
    if commits then
      ((calls.foldl (BatchCall.queue h net) {}).commit h net).map fun _ => ()
    else ⟨(), net, []⟩
  | predecessors dependant tokens => (Predecessor.apply h net dependant tokens).map fun _ => ()
  | records list => (Record.restore h net list).map fun _ => ()

/-- The network after edits in order. -/
def LinkEdit.run (h : Hierarchy) (net : Network) (edits : List LinkEdit) : Network :=
  edits.foldl (fun net edit => (edit.perform h net).state) net

/-! ## Fewer links -/

section Fewer

variable {net : Network} {key : LinkKey}

theorem Network.contains_of_remove {removed : LinkKey}
    (kept : (net.remove removed).state.contains key = true) : net.contains key = true := by
  unfold remove at kept
  split at kept
  · exact kept
  · exact contains_of_eraseLink kept

theorem Network.contains_of_removeAll {keys : List LinkKey}
    (kept : (net.removeAll keys).state.contains key = true) : net.contains key = true := by
  induction keys generalizing net with
  | nil => exact kept
  | cons first rest ih =>
    have later : ((net.remove first).state.removeAll rest).state.contains key = true := kept
    exact contains_of_remove (ih later)

theorem Network.contains_amend {amended : LinkKey} {f : Link → Link}
    {keeps : ∀ link, (f link).key = link.key} {tell : Link → List Change} :
    (net.amend amended f keeps tell).state.contains key = net.contains key := by
  unfold amend
  split
  · rfl
  · exact contains_updateLink

end Fewer

/-! ## What every edit keeps -/

namespace Network

/-- Kept when links are lost or only ask something else, and when a link is admitted. -/
structure Lasting (h : Hierarchy) (motive : Network → Prop) : Prop where
  of_fewer : ∀ {net fewer : Network}, motive net →
    (∀ key, fewer.contains key = true → net.contains key = true) → motive fewer
  insertLink : ∀ {net : Network} {link : Link}, motive net → net.validate h link.key = .ok () →
    motive (net.insertLink link)

namespace Lasting

variable {h : Hierarchy} {motive : Network → Prop} {net : Network}

theorem add (lasting : Lasting h motive) (holds : motive net) (link : Link) :
    motive (net.add h link).state := by
  rcases add_cases h net link with ⟨admitted, added⟩ | ⟨_, -, refused⟩
  · rw [added]
    exact lasting.insertLink holds admitted
  · rw [refused]
    exact holds

theorem remove (lasting : Lasting h motive) (holds : motive net) (key : LinkKey) :
    motive (net.remove key).state :=
  lasting.of_fewer holds fun _ => contains_of_remove

theorem removeAll (lasting : Lasting h motive) (holds : motive net) (keys : List LinkKey) :
    motive (net.removeAll keys).state :=
  lasting.of_fewer holds fun _ => contains_of_removeAll

theorem clear (lasting : Lasting h motive) (holds : motive net) : motive net.clear.state :=
  lasting.of_fewer holds fun _ there => absurd there not_contains_empty

theorem amend (lasting : Lasting h motive) (holds : motive net) {key : LinkKey} {f : Link → Link}
    {keeps : ∀ link, (f link).key = link.key} {tell : Link → List Change} :
    motive (net.amend key f keeps tell).state :=
  lasting.of_fewer holds fun _ there => by rwa [contains_amend] at there

theorem performPending (lasting : Lasting h motive) (holds : motive net) (pending : Pending) :
    motive (Batch.perform h net pending).state := by
  cases pending with
  | add link =>
    have added := lasting.add holds link
    simp only [Batch.perform]
    split <;> exact added
  | remove key => exact lasting.remove holds key
  | clear => exact lasting.clear holds

theorem performAll (lasting : Lasting h motive) (holds : motive net) (queue : List Pending) :
    motive (Batch.performAll h net queue).state := by
  induction queue generalizing net with
  | nil => exact holds
  | cons pending rest ih => exact ih (lasting.performPending holds pending)

theorem applyPredecessors (lasting : Lasting h motive) (holds : motive net) (dependant : TaskId)
    (tokens : List Predecessor) : motive (Predecessor.apply h net dependant tokens).state := by
  induction tokens generalizing net with
  | nil => exact holds
  | cons token rest ih =>
    simp only [Predecessor.apply]
    split
    · exact holds
    · have added := lasting.add holds (token.link dependant)
      simp only [Edited.andThen]
      split
      · exact added
      · exact ih added

theorem restore (lasting : Lasting h motive) (holds : motive net) (records : List Record) :
    motive (Record.restore h net records).state := by
  unfold Record.restore
  split
  · exact holds
  · exact lasting.performAll holds _

/-- Every edit of the links, whatever it answers. -/
theorem perform (lasting : Lasting h motive) (holds : motive net) (edit : LinkEdit) :
    motive (edit.perform h net).state := by
  cases edit with
  | add link => exact lasting.add holds link
  | create key => exact lasting.add holds (net.newLink key)
  | remove key => exact lasting.remove holds key
  | detach task => exact lasting.removeAll holds _
  | clear => exact lasting.clear holds
  | setRelation key relation => exact lasting.amend holds
  | setLag key lag => exact lasting.amend holds
  | setHardness key hardness => exact lasting.amend holds
  | batch calls commits =>
    simp only [LinkEdit.perform]
    split
    · exact lasting.performAll holds _
    · exact holds
  | predecessors dependant tokens => exact lasting.applyPredecessors holds dependant tokens
  | records list => exact lasting.restore holds list

/-- Every run of edits. -/
theorem run (lasting : Lasting h motive) (holds : motive net) (edits : List LinkEdit) :
    motive (LinkEdit.run h net edits) := by
  induction edits generalizing net with
  | nil => exact holds
  | cons edit rest ih => exact ih (lasting.perform holds edit)

end Lasting

theorem fits_empty {h : Hierarchy} (forest : h.IsForest) (defaults : LinkDefaults) :
    (empty defaults).Fits h where
  liesOn _ there := absurd there not_contains_empty
  acyclic task cycle := by
    refine forest.not_inside_self task (Relation.TransGen.mono (fun a b arrow => ?_) _ _ cycle)
    cases arrow with
    | link there => exact absurd there not_contains_empty
    | containment found => exact found

/-- On a forest nothing comes to be before itself, since a link that would close a loop is not
admitted. -/
theorem lasting_acyclic {h : Hierarchy} (forest : h.IsForest) :
    Lasting h fun net => Acyclic (Precedes h net) where
  of_fewer acyclic kept := acyclic.mono fun _ _ arrow => arrow.of_fewer kept
  insertLink acyclic admitted :=
    acyclic_insertLink forest acyclic (validate_eq_ok_iff.mp admitted).2.2.2.2

/-- On a forest a network goes on fitting, since a link that would close a loop is not admitted. -/
theorem lasting_fits {h : Hierarchy} (forest : h.IsForest) : Lasting h fun net => net.Fits h where
  of_fewer fits kept :=
    ⟨fun key there => fits.liesOn key (kept key there),
      fits.acyclic.mono fun _ _ arrow => arrow.of_fewer kept⟩
  insertLink fits admitted := by
    obtain ⟨-, dependant, dependee, -, noLoop⟩ := validate_eq_ok_iff.mp admitted
    exact fits.insertLink forest dependant dependee noLoop

theorem fits_run {h : Hierarchy} (forest : h.IsForest) (defaults : LinkDefaults)
    (edits : List LinkEdit) : (LinkEdit.run h (empty defaults) edits).Fits h :=
  (lasting_fits forest).run (fits_empty forest defaults) edits

/-- Over any hierarchy, the tasks of a link are neither the same nor one inside the other. -/
theorem lasting_checked (h : Hierarchy) : Lasting h fun net =>
    ∀ key, net.contains key = true → checkPair h key = .ok () where
  of_fewer checked kept key there := checked key (kept key there)
  insertLink checked admitted key there := by
    rcases contains_insertLink.mp there with rfl | there
    · exact (validate_eq_ok_iff.mp admitted).2.2.2.1
    · exact checked key there

theorem checked_run (h : Hierarchy) (defaults : LinkDefaults) (edits : List LinkEdit)
    (key : LinkKey) (there : (LinkEdit.run h (empty defaults) edits).contains key = true) :
    checkPair h key = .ok () :=
  (lasting_checked h).run (fun _ there => absurd there not_contains_empty) edits key there

end Network

/-! ## Coherent plans -/

section Coherent

variable {o : Outline} {net : Network}

theorem Coherent.removeAll (coherent : Coherent o net) (keys : List LinkKey) :
    Coherent o (net.removeAll keys).state :=
  coherent.of_fits ((Network.lasting_fits coherent.forest).removeAll coherent.fits keys)

theorem Coherent.clear (coherent : Coherent o net) : Coherent o net.clear.state :=
  coherent.of_fits ((Network.lasting_fits coherent.forest).clear coherent.fits)

theorem Coherent.applyPredecessors (coherent : Coherent o net) (dependant : TaskId)
    (tokens : List Predecessor) :
    Coherent o (Predecessor.apply o.hierarchy net dependant tokens).state :=
  coherent.of_fits
    ((Network.lasting_fits coherent.forest).applyPredecessors coherent.fits dependant tokens)

theorem Coherent.restore (coherent : Coherent o net) (records : List Record) :
    Coherent o (Record.restore o.hierarchy net records).state :=
  coherent.of_fits ((Network.lasting_fits coherent.forest).restore coherent.fits records)

/-- Every edit of the links keeps a plan coherent. -/
theorem Coherent.perform (coherent : Coherent o net) (edit : LinkEdit) :
    Coherent o (edit.perform o.hierarchy net).state :=
  coherent.of_fits ((Network.lasting_fits coherent.forest).perform coherent.fits edit)

end Coherent

end Workplan
