/-
# Workplan.Proofs.Restoring — a network read back from its records

Every link of a network was admitted against the links that were there before it. Read back from
records, the links arrive in some other order, and each is checked again. On a forest that makes no
difference: whatever part of the links is there already, it closes no loop with the next one,
because all of them together close none.

* `Fits.admits` — a part of a network takes every link that it still lacks;
* `performAll_adds` — so it takes all of them, one after another;
* `restore_spec` — the records of a network, in any order and of either kind, make it again.
-/
import Workplan.Proofs.BatchQueues

namespace Workplan

set_option autoImplicit false

/-- The record is one of the two that are written for the link. -/
def Record.Stores (record : Record) (link : Link) : Prop :=
  record = .ofLink link ∨ record = .readable link

theorem Record.mapM_link {records : List Record} {links : List Link}
    (stored : List.Forall₂ Record.Stores records links) : records.mapM Record.link = .ok links := by
  refine mapM_eq_ok_iff.mpr (stored.imp fun record link stores => ?_)
  rcases stores with rfl | rfl
  · exact link_ofLink link
  · exact link_readable link

/-- A batch refuses none of the links if their tasks may be joined and no two have the same key. -/
theorem Record.queueAll_of_distinct {h : Hierarchy} {links : List Link}
    (checked : ∀ link ∈ links, Network.checkPair h link.key = .ok ())
    (distinct : (links.map Link.key).Nodup) :
    Record.queueAll h links {} = (⟨links.map .add⟩, []) := by
  have steps : ∀ batch : Batch,
      (∀ link ∈ links, batch.queue.any (Pending.adds link.key) = false) →
      Record.queueAll h links batch = (⟨batch.queue ++ links.map .add⟩, []) := by
    induction links with
    | nil => exact fun batch _ => by simp [queueAll]
    | cons link rest ih =>
      intro batch none
      obtain ⟨first, later⟩ := List.nodup_cons.mp distinct
      have grown : batch.add h link = .ok ⟨batch.queue ++ [.add link]⟩ := by
        rw [Batch.add, checked link List.mem_cons_self, none link List.mem_cons_self]
        rfl
      have noneLater : ∀ other ∈ rest,
          (batch.queue ++ [Pending.add link]).any (Pending.adds other.key) = false := by
        intro other member
        have apart : link.key ≠ other.key := fun same =>
          first (same ▸ List.mem_map_of_mem member)
        rw [List.any_append, none other (List.mem_cons_of_mem _ member)]
        simp [Pending.adds, apart]
      simp only [queueAll, grown]
      rw [ih (fun other member => checked other (List.mem_cons_of_mem _ member)) later _ noneLater]
      simp
  exact steps {} (by simp)

namespace Network

variable {h : Hierarchy} {net part : Network}

/-- All links together close no loop, so no part of them closes one with another. -/
theorem Fits.admits (fits : net.Fits h) (forest : h.IsForest)
    (checked : ∀ key, net.contains key = true → checkPair h key = .ok ())
    (fewer : ∀ key, part.contains key = true → net.contains key = true) {key : LinkKey}
    (there : net.contains key = true) (missing : part.contains key = false) :
    part.validate h key = .ok () := by
  obtain ⟨dependant, dependee⟩ := fits.liesOn key there
  have acyclic : Acyclic (Precedes h part) :=
    fits.acyclic.mono fun _ _ arrow => arrow.of_fewer fewer
  have joined : Acyclic (Precedes h (part.insertLink { key })) := by
    refine fits.acyclic.mono fun _ _ arrow => arrow.of_fewer fun other kept => ?_
    rcases contains_insertLink.mp kept with rfl | before
    · exact there
    · exact fewer other before
  have noLoop : part.isLooping h key = false := by
    rw [← Bool.not_eq_true, isLooping_iff forest]
    exact (acyclic_insertLink_iff acyclic).mp joined
  exact validate_eq_ok_iff.mpr ⟨missing, dependant, dependee, checked key there, noLoop⟩

theorem contains_of_subset (fewer : ∀ link ∈ part.links, link ∈ net.links) (key : LinkKey)
    (there : part.contains key = true) : net.contains key = true := by
  obtain ⟨link, member, rfl⟩ := contains_iff.mp there
  exact contains_of_mem (fewer link member)

theorem mem_links_insertLink {added link : Link} (missing : net.contains added.key = false) :
    link ∈ (net.insertLink added).links ↔ link = added ∨ link ∈ net.links := by
  refine Catalog.mem_insert.trans (or_congr_right (and_iff_left_of_imp fun member same => ?_))
  rw [← same, contains_of_mem member] at missing
  contradiction

/-- The links that a part still lacks may be added in any order. -/
theorem Fits.performAll_adds (fits : net.Fits h) (forest : h.IsForest)
    (checked : ∀ key, net.contains key = true → checkPair h key = .ok ())
    {links : List Link} (distinct : (links.map Link.key).Nodup)
    (stored : ∀ link ∈ links, link ∈ net.links) (part : Network)
    (fewer : ∀ link ∈ part.links, link ∈ net.links)
    (missing : ∀ link ∈ links, part.contains link.key = false) :
    (Batch.performAll h part (links.map .add)).answer = { applied := links.length } ∧
    ∀ link, link ∈ (Batch.performAll h part (links.map .add)).state.links ↔
      link ∈ part.links ∨ link ∈ links := by
  induction links generalizing part with
  | nil => simp [Batch.performAll]
  | cons first rest ih =>
    obtain ⟨new, distinctRest⟩ := List.nodup_cons.mp distinct
    have lacks := missing first List.mem_cons_self
    -- Whatever was added before it, the next link closes no loop.
    have admitted := fits.admits forest checked (contains_of_subset fewer)
      (contains_of_mem (stored first List.mem_cons_self)) lacks
    have performed : Batch.perform h part (.add first) =
        ⟨{ applied := 1 }, part.insertLink first, [.added first]⟩ := by
      simp only [Batch.perform, add_of_admitted admitted]
    have fewerRest : ∀ link ∈ (part.insertLink first).links, link ∈ net.links := by
      intro link member
      rcases (mem_links_insertLink lacks).mp member with rfl | before
      · exact stored link List.mem_cons_self
      · exact fewer link before
    have missingRest : ∀ link ∈ rest, (part.insertLink first).contains link.key = false := by
      intro link member
      rw [← Bool.not_eq_true, contains_insertLink]
      rintro (same | there)
      · exact new (same ▸ List.mem_map_of_mem member)
      · rw [missing link (List.mem_cons_of_mem _ member)] at there
        contradiction
    obtain ⟨answer, state⟩ := ih distinctRest
      (fun link member => stored link (List.mem_cons_of_mem _ member)) (part.insertLink first)
      fewerRest missingRest
    simp only [List.map_cons, Batch.performAll, performed, Edited.andThen, Edited.map, answer]
    refine ⟨by simp [CommitReport.append, Nat.add_comm], fun link => ?_⟩
    rw [state, mem_links_insertLink lacks, List.mem_cons, or_assoc, or_left_comm]

/-- On a forest, let links be made in any way, and let each be written as a record, its relation by
code or by mnemonic. Read back in any order, into a network without links, the records are all
taken, and the network has the same links again, asking the same. -/
theorem restore_spec (forest : h.IsForest) (defaults other : LinkDefaults) (edits : List LinkEdit)
    {links : List Link} {records : List Record}
    (shuffled : links.Perm (LinkEdit.run h (.empty defaults) edits).toList)
    (stored : List.Forall₂ Record.Stores records links) :
    (Record.restore h (.empty other) records).answer =
      .ok { applied := records.length, failed := [] } ∧
    (Record.restore h (.empty other) records).state.toList =
      (LinkEdit.run h (.empty defaults) edits).toList := by
  have fits := fits_run forest defaults edits
  have checked := checked_run h defaults edits
  generalize LinkEdit.run h (.empty defaults) edits = net at shuffled fits checked ⊢
  have inside : ∀ link ∈ links, link ∈ net.links := fun link member => shuffled.mem_iff.mp member
  have distinct : (links.map Link.key).Nodup := by
    refine (shuffled.map Link.key).nodup_iff.mpr (List.nodup_map_iff_inj_on ?_ |>.mpr ?_)
    · exact Catalog.nodup_of_sorted net.sorted_toList
    · exact fun a left b right => Catalog.eq_of_key_eq left right
  have queued := Record.queueAll_of_distinct
    (fun link member => checked link.key (contains_of_mem (inside link member))) distinct
  -- The empty network is a part of any other, and lacks every link.
  obtain ⟨answer, state⟩ := fits.performAll_adds forest checked distinct inside
    (.empty other) (fun link member => absurd member (Catalog.not_mem_empty link)) (fun link _ => rfl)
  simp only [Record.restore, Record.mapM_link stored, queued, Batch.commit, Edited.map, answer]
  refine ⟨by simp [CommitReport.append, stored.length_eq], ?_⟩
  refine Catalog.eq_of_sorted (sorted_toList _) net.sorted_toList fun link => ?_
  refine (state link).trans ((or_iff_right (Catalog.not_mem_empty link)).trans shuffled.mem_iff)

end Network

namespace Sample

/-! ## Two links that a container and its task wait by -/

def far : Link :=
  { key := ⟨outer, other⟩, relation := .finishFinish, hardness := .rubber, lag := .least }

def near : Link :=
  { key := ⟨inner, other⟩, relation := .startFinish, lag := .greatest }

end Sample

/-- The record of the first link comes last; it names the relation by its code, the other one by its
mnemonic. -/
theorem Network.restore_spec_in_container : ∃ o, Sample.outline = .ok o ∧
    let net := LinkEdit.run o.hierarchy (.empty {}) [.add Sample.far, .add Sample.near]
    let records := [Record.readable Sample.near, Record.ofLink Sample.far]
    net.toList = [Sample.far, Sample.near] ∧
    (Record.restore o.hierarchy (.empty {}) records).answer = .ok { applied := 2 } ∧
    (Record.restore o.hierarchy (.empty {}) records).state.toList = net.toList := by
  obtain ⟨o, built⟩ : ∃ o, Sample.outline = .ok o := ⟨_, rfl⟩
  have forest := (Sample.coherent_outline built).1.forest
  have listed : (LinkEdit.run o.hierarchy (.empty {}) [.add Sample.far, .add Sample.near]).toList =
      [Sample.far, Sample.near] := by
    cases built
    decide
  have swapped : [Sample.near, Sample.far].Perm
      (LinkEdit.run o.hierarchy (.empty {}) [.add Sample.far, .add Sample.near]).toList := by
    rw [listed]
    exact .swap Sample.far Sample.near []
  have restored := Network.restore_spec forest {} {} [.add Sample.far, .add Sample.near] swapped
    (.cons (.inr rfl) (.cons (.inl rfl) .nil))
  exact ⟨o, built, listed, restored⟩

end Workplan
