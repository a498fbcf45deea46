/-
# Workplan.Proofs.RecordAccounts — what becomes of every record

Records are read before any link is touched, and one that cannot be read stops everything. Otherwise each
tells a link that may be refused in two places: when it is queued, for its tasks or because the batch has
its key already, or when the batch is committed, by the network as it then is. `Accounts` says that the
refused links and those that the network has afterwards and had not before are together the links that
were told, each as often as it was told.

* `Batch.performAll_adds`, `Record.queueAll_splits` — each of the two places on its own;
* `Record.accounts_restore` — both together;
* `restore_accounts` — over any hierarchy, in any network, and whatever the records say.
-/
import Workplan.Proofs.LinkLog
import Workplan.Proofs.Restoring

namespace Workplan

set_option autoImplicit false

/-- The links of the later network whose keys the earlier one did not have. -/
def Network.newLinks (before after : Network) : List Link :=
  after.toList.filter fun link => !before.contains link.key

/-- The report on links that were asked for, the network afterwards and the changes that were told agree:
each time that a link was asked for it is new or refused, all that was there before still is, and the
changes are one addition of every new link. -/
structure Record.Accounts (net : Network) (asked : List Link) (report : CommitReport)
    (after : Network) (changes : List Change) : Prop where
  applied : report.applied = (net.newLinks after).length
  settled : (report.failed.map Prod.fst ++ net.newLinks after).Perm asked
  keeps : ∀ link ∈ net.links, link ∈ after.links
  tells : changes.Perm ((net.newLinks after).map .added)

/-! ## The two places -/

theorem Batch.queue_of_add {h : Hierarchy} {batch grown : Batch} {link : Link}
    (added : batch.add h link = .ok grown) : grown.queue = batch.queue ++ [.add link] := by
  unfold add at added
  split at added
  · contradiction
  · split at added
    · contradiction
    · cases added
      rfl

/-- Of the links that are to be queued, some are put at the end of the queue and the others refused. -/
theorem Record.queueAll_splits (h : Hierarchy) (links : List Link) (batch : Batch) :
    ∃ queued, (queueAll h links batch).1.queue = batch.queue ++ queued.map .add ∧
      ((queueAll h links batch).2.map Prod.fst ++ queued).Perm links := by
  induction links generalizing batch with
  | nil => exact ⟨[], (List.append_nil _).symm, .nil⟩
  | cons link rest ih =>
    simp only [queueAll]
    split
    · rename_i grown added
      obtain ⟨queued, queue, all⟩ := ih grown
      refine ⟨link :: queued, ?_, List.perm_middle.trans (all.cons link)⟩
      rw [queue, Batch.queue_of_add added, List.append_assoc]
      rfl
    · obtain ⟨queued, queue, all⟩ := ih batch
      exact ⟨queued, queue, all.cons link⟩

/-- Of the queued additions, some are made and told, and the others reported. -/
theorem Batch.performAll_adds (h : Hierarchy) (net : Network) (links : List Link) :
    ∃ made, (performAll h net (links.map .add)).changes = made.map .added ∧
      (performAll h net (links.map .add)).answer.applied = made.length ∧
      ((performAll h net (links.map .add)).answer.failed.map Prod.fst ++ made).Perm links := by
  induction links generalizing net with
  | nil => exact ⟨[], rfl, rfl, .nil⟩
  | cons link rest ih =>
    rcases Network.add_cases h net link with ⟨-, added⟩ | ⟨refusal, -, refused⟩
    · obtain ⟨made, changes, applied, all⟩ := ih (net.insertLink link)
      simp only [List.map_cons, performAll, perform, added, Edited.andThen, Edited.map,
        CommitReport.append, changes, applied]
      exact ⟨link :: made, rfl, Nat.add_comm 1 _, List.perm_middle.trans (all.cons link)⟩
    · obtain ⟨made, changes, applied, all⟩ := ih net
      simp only [List.map_cons, performAll, perform, refused, Edited.andThen, Edited.map,
        CommitReport.append, changes, applied]
      exact ⟨made, rfl, Nat.zero_add _, all.cons link⟩

/-! ## Both together -/

/-- What the network gained is what is new in it. -/
theorem Network.Gains.perm_newLinks {net after : Network} {made : List Link}
    (gains : net.Gains made after) : made.Perm (net.newLinks after) := by
  have distinct : made.Nodup := gains.distinct.of_map _
  have sorted : (net.newLinks after).Nodup :=
    (Catalog.nodup_of_sorted after.sorted_toList).filter _
  refine (List.perm_ext_iff_of_nodup distinct sorted).mpr fun link => ?_
  have listed : link ∈ after.toList ↔ link ∈ net.links ∨ link ∈ made := gains.mem_links link
  rw [newLinks, List.mem_filter, listed, Bool.not_eq_true']
  constructor
  · exact fun member => ⟨.inr member, gains.missing link member⟩
  · rintro ⟨old | member, missing⟩
    · rw [contains_of_mem old] at missing
      contradiction
    · exact member

theorem Record.accounts_restore (h : Hierarchy) (net : Network) {records : List Record}
    {links : List Link} (told : List.Forall₂ (fun record link => record.link = .ok link) records links) :
    ∃ report, (restore h net records).answer = .ok report ∧
      Accounts net links report (restore h net records).state (restore h net records).changes := by
  obtain ⟨queued, queue, splits⟩ := queueAll_splits h links {}
  obtain ⟨made, changes, applied, performs⟩ := Batch.performAll_adds h net queued
  generalize refusals : (queueAll h links {}).2 = refused at splits
  have restored : restore h net records = (Batch.performAll h net (queued.map .add)).map fun report =>
      .ok (report.append { failed := refused }) := by
    simp only [restore, mapM_eq_ok_iff.mpr told, Batch.commit, queue, refusals]
    rfl
  have logged : (restore h net records).Logs net := logs_restore h net records
  rw [restored] at logged ⊢
  generalize Batch.performAll h net (queued.map .add) = performed at changes applied performs logged
  simp only [Edited.Logs, Edited.map, changes] at logged ⊢
  have isNew := logged.gains.perm_newLinks
  refine ⟨_, rfl, ?_, ?_, fun link member => (logged.gains.mem_links link).mpr (.inl member),
    isNew.map _⟩
  · exact (Nat.add_zero _).trans (applied.trans isNew.length_eq)
  · -- Those that the commit refused and those that it made were queued; the batch refused the rest.
    have made_or_refused :
        (performed.answer.failed.map Prod.fst ++ net.newLinks performed.state).Perm queued :=
      (isNew.symm.append_left _).trans performs
    simp only [CommitReport.append, List.map_append, List.append_assoc]
    exact (List.perm_append_comm_assoc ..).trans ((made_or_refused.append_left _).trans splits)

namespace Network

/-- Records are refused as a whole if one of them cannot be read, and then nothing is changed or told.
Otherwise every record is counted as made or refused; the refused links and the new ones are those that
the records tell, each as often as it is told; and one addition is told of each new link. In a forest,
nothing comes to be before itself. -/
theorem restore_accounts (h : Hierarchy) (net : Network) (records : List Record) :
    let restored := Record.restore h net records
    ((∃ reason, restored.answer = .error reason) ↔
      ∃ record ∈ records, ∃ reason, record.link = .error reason) ∧
    (∀ reason, restored.answer = .error reason → restored.state = net ∧ restored.changes = []) ∧
    (∀ report, restored.answer = .ok report →
      report.applied + report.failed.length = records.length ∧
      ∃ links, List.Forall₂ (fun record link => record.link = .ok link) records links ∧
        Record.Accounts net links report restored.state restored.changes) ∧
    (h.IsForest → Acyclic (Precedes h net) → Acyclic (Precedes h restored.state)) := by
  intro restored
  have acyclic : h.IsForest → Acyclic (Precedes h net) → Acyclic (Precedes h restored.state) :=
    fun forest acyclic => (lasting_acyclic forest).restore acyclic records
  rw [← exists_mapM_error_iff]
  cases told : records.mapM Record.link with
  | error reason =>
    have stopped : restored = ⟨.error reason, net, []⟩ := by
      simp only [restored, Record.restore, told]
    rw [stopped] at acyclic ⊢
    refine ⟨by simp, fun _ _ => ⟨rfl, rfl⟩, fun report done => ?_, acyclic⟩
    cases done
  | ok links =>
    have links_told := mapM_eq_ok_iff.mp told
    obtain ⟨report, answer, accounts⟩ := Record.accounts_restore h net links_told
    change restored.answer = .ok report at answer
    rw [answer]
    refine ⟨by simp, fun reason failed => by simp at failed, fun _ done => ?_, acyclic⟩
    obtain rfl := Except.ok.inj done
    have size := accounts.settled.length_eq
    rw [List.length_append, List.length_map, ← accounts.applied, Nat.add_comm] at size
    exact ⟨size.trans links_told.length_eq.symm, links, links_told, accounts⟩

/-- A link is told twice, one that leads back from it, and one that is there already. -/
theorem restore_accounts_for_loop : ∃ o, Sample.outline = .ok o ∧
    let back : Link := { key := ⟨Sample.other, Sample.inner⟩ }
    let records := [Record.ofLink Sample.near, Record.readable Sample.near, Record.ofLink back,
      Record.ofLink { key := ⟨Sample.outer, Sample.other⟩ }]
    let restored := Record.restore o.hierarchy Sample.network records
    Sample.network.newLinks restored.state = [Sample.near] ∧
      (∃ report, restored.answer = .ok report ∧ report.applied + report.failed.length = 4) ∧
      Acyclic (Precedes o.hierarchy restored.state) := by
  obtain ⟨o, built⟩ : ∃ o, Sample.outline = .ok o := ⟨_, rfl⟩
  have coherent := (Sample.coherent_outline built).1
  refine ⟨o, built, ?_⟩
  intro back records restored
  obtain ⟨unread, -, made, acyclic⟩ := restore_accounts o.hierarchy Sample.network records
  have readable : ∀ record ∈ records, ∀ reason, record.link ≠ .error reason := by
    simp [records, Record.link_ofLink, Record.link_readable]
  obtain ⟨report, answer⟩ : ∃ report, restored.answer = .ok report := by
    cases answer : restored.answer with
    | ok report => exact ⟨report, rfl⟩
    | error reason =>
      obtain ⟨record, member, why, bad⟩ := unread.mp ⟨reason, answer⟩
      exact absurd bad (readable record member why)
  refine ⟨?_, ⟨report, answer, (made report answer).1⟩, acyclic coherent.forest coherent.acyclic⟩
  cases built
  decide

end Network

end Workplan
