/-
# Workplan.Proofs.Delays — longer lags never let a task start earlier

Two passes over the same tasks, where every day is worked, with the same links but for lags that are
no shorter in the second. A link may be kept in the one pass and violated in the other, and then it
pins its task where it only held it back before. That does no harm: the date of a violated link comes
no earlier than the old start, so that the old start counts in both passes (`heldDates`).

* `Network.Delayed` — the same links with lags that are no shorter;
* `Relation.acceptable_mono` — a dependee that comes later, or a longer lag, asks for a later date;
* `span_mono` — a task that is moved further ends no earlier, also at the end of the calendar;
* `startsLater_of_sources` — if all that comes before a task starts no earlier, neither does the task;
* `delays_monotone` — so, along the plan, every task starts no earlier.
-/
import Workplan.Proofs.LeafStarts

namespace Workplan

set_option autoImplicit false

/-! ## Links with longer lags -/

/-- The same links with the same demands, but for lags that may be longer. -/
structure Network.Delayed (net late : Network) : Prop where
  keeps : ∀ link ∈ net.links, ∃ lag : Lag, link.lag.days ≤ lag.days ∧ { link with lag } ∈ late.links
  only : ∀ link ∈ late.links, ∃ lag : Lag, lag.days ≤ link.lag.days ∧ { link with lag } ∈ net.links

namespace Network.Delayed

variable {net late : Network}

theorem contains_iff (delayed : net.Delayed late) (key : LinkKey) :
    late.contains key = true ↔ net.contains key = true := by
  simp only [Network.contains_iff]
  constructor
  · rintro ⟨link, member, rfl⟩
    obtain ⟨lag, -, there⟩ := delayed.only link member
    exact ⟨_, there, rfl⟩
  · rintro ⟨link, member, rfl⟩
    obtain ⟨lag, -, there⟩ := delayed.keeps link member
    exact ⟨_, there, rfl⟩

theorem refl (net : Network) : net.Delayed net :=
  ⟨fun link member => ⟨link.lag, Int.le_refl _, member⟩,
    fun link member => ⟨link.lag, Int.le_refl _, member⟩⟩

theorem insertLink (delayed : net.Delayed late) (link : Link) {lag : Lag}
    (longer : link.lag.days ≤ lag.days) :
    (net.insertLink link).Delayed (late.insertLink { link with lag }) := by
  constructor
  · intro old member
    rcases Catalog.mem_insert.mp member with rfl | ⟨there, differ⟩
    · exact ⟨lag, longer, Catalog.mem_insert.mpr (.inl rfl)⟩
    · obtain ⟨later, more, kept⟩ := delayed.keeps old there
      exact ⟨later, more, Catalog.mem_insert.mpr (.inr ⟨kept, differ⟩)⟩
  · intro new member
    rcases Catalog.mem_insert.mp member with rfl | ⟨there, differ⟩
    · exact ⟨link.lag, longer, Catalog.mem_insert.mpr (.inl rfl)⟩
    · obtain ⟨earlier, less, kept⟩ := delayed.only new there
      exact ⟨earlier, less, Catalog.mem_insert.mpr (.inr ⟨kept, differ⟩)⟩

/-- What comes before what does not depend on the lags. -/
theorem coherent {o : Outline} (delayed : net.Delayed late) (coherent : Coherent o net) :
    Coherent o late where
  forest := coherent.forest
  liesOn key there := coherent.liesOn key ((delayed.contains_iff key).mp there)
  acyclic := coherent.acyclic.mono fun _ _ arrow =>
    arrow.of_fewer fun key there => (delayed.contains_iff key).mp there

theorem pinned_iff (delayed : net.Delayed late) (id : TaskId) :
    Schedule.Pinned late id ↔ Schedule.Pinned net id := by
  constructor
  · rintro ⟨link, member, own, strong⟩
    obtain ⟨lag, -, there⟩ := delayed.only link member
    exact ⟨_, there, own, strong⟩
  · rintro ⟨link, member, own, strong⟩
    obtain ⟨lag, -, there⟩ := delayed.keeps link member
    exact ⟨_, there, own, strong⟩

end Network.Delayed

/-! ## Later dates -/

theorem Calendar.shift_everyDay_mono {a b : Date} {few many : Int} (later : a ≤ b)
    (more : few ≤ many) : everyDay.shift a few ≤ everyDay.shift b many := by
  have first := day_shift_everyDay a few
  have second := day_shift_everyDay b many
  rw [Date.le_iff] at later ⊢
  omega

/-- A dependee that ends and starts later, with a longer lag, asks for a later start. -/
theorem Relation.acceptable_mono (relation : Relation) {dependee later : Span} {lag longer : Int}
    (starts : dependee.start ≤ later.start) (ends : dependee.finish ≤ later.finish)
    (more : lag ≤ longer) (own : Span) :
    (relation.forward dependee own lag .everyDay).acceptable ≤
      (relation.forward later own longer .everyDay).acceptable := by
  have dates : relation.dependeeDate dependee ≤ relation.dependeeDate later := by
    unfold dependeeDate
    split
    · exact starts
    · exact ends
  have barriers : relation.barrier dependee lag .everyDay ≤ relation.barrier later longer .everyDay :=
    Calendar.shift_everyDay_mono dates more
  unfold forward
  dsimp only
  split
  · exact Calendar.shift_everyDay_mono barriers (Int.le_refl _)
  · exact barriers

namespace Schedule

section Tasks

variable {task one other : Task}

/-- A task that stays, or is moved as a whole, ends after its length, or with the calendar. -/
theorem finish_of_moved {placed : Task} (ordered : task.start ≤ task.finish)
    (moved : placed = task ∨ placed = task.shiftTo placed.start .everyDay) :
    placed.span.finish.day =
      min (placed.start.day + task.span.length .everyDay) Date.last.day := by
  rcases moved with rfl | shifted
  · have length := Calendar.length_everyDay (Task.span_ordered ordered)
    have limit : placed.span.finish.day ≤ Date.last.day := placed.span.finish.le_lastDay
    rw [Task.span_start] at length
    omega
  · rw [shifted, Task.span_shiftTo]
    exact Calendar.day_shift_everyDay_ahead placed.start (task.span.length_nonneg .everyDay)

/-- Of two ways to place a task, the one that starts no earlier ends no earlier. -/
theorem span_mono (ordered : task.start ≤ task.finish)
    (moved : one = task ∨ one = task.shiftTo one.start .everyDay)
    (movedToo : other = task ∨ other = task.shiftTo other.start .everyDay)
    (later : one.start ≤ other.start) :
    one.span.start ≤ other.span.start ∧ one.span.finish ≤ other.span.finish := by
  have first := finish_of_moved ordered moved
  have second := finish_of_moved ordered movedToo
  rw [Task.span_start, Task.span_start]
  refine ⟨later, ?_⟩
  rw [Date.le_iff] at later ⊢
  omega

end Tasks

section Dates

variable {linked later : Set Date} {pinned pinnedToo : Prop} {task : Task}

/-- If every date that links ask for is followed by one that they ask for later, so is every date that
holds the task back. -/
theorem exists_later_heldDate (follows : ∀ date ∈ linked, ∃ after ∈ later, date ≤ after)
    (only : later.Nonempty → linked.Nonempty) (same : pinnedToo ↔ pinned) {date : Date}
    (held : date ∈ heldDates pinned linked task) :
    ∃ after ∈ heldDates pinnedToo later task, date ≤ after := by
  rcases held with (bound | earliest) | ⟨rfl, nothing | ⟨slack, some⟩⟩
  · obtain ⟨after, member, less⟩ := follows date bound
    exact ⟨after, .inl (.inl member), less⟩
  · exact ⟨date, .inl (.inr earliest), Std.le_refl _⟩
  -- nothing is asked, so no link bears on the task, in either pass
  · have none : later = ∅ := by
      refine Set.not_nonempty_iff_eq_empty.mp fun some => ?_
      obtain ⟨date, bound⟩ := only some
      exact absurd (nothing ▸ Or.inl bound : date ∈ (∅ : Set Date)) (Set.notMem_empty date)
    have unasked : askedDates later task = ∅ := by
      refine Set.eq_empty_of_subset_empty (subset_of_subset_of_eq ?_ nothing)
      rw [none]
      exact Set.union_subset_union_left _ (Set.empty_subset linked)
    exact ⟨task.start, .inr ⟨rfl, .inl unasked⟩, Std.le_refl _⟩
  -- the old start counts again, whether or not a longer lag has made a link a violated one
  · obtain ⟨date, bound⟩ := some
    obtain ⟨after, member, -⟩ := follows date bound
    exact ⟨task.start, .inr ⟨rfl, .inr ⟨same.not.mpr slack, after, member⟩⟩, Std.le_refl _⟩

end Dates

/-! ## Two passes -/

section Passes

variable {o first second : Outline} {net late : Network}

/-- Both passes place the task, as it was or moved as a whole, and the second no earlier. -/
def StartsLater (o first second : Outline) (id : TaskId) : Prop :=
  ∀ task, o.task? id = some task → ∃ one other,
    first.task? id = some one ∧ second.task? id = some other ∧
      (one = task ∨ one = task.shiftTo one.start .everyDay) ∧
      (other = task ∨ other = task.shiftTo other.start .everyDay) ∧ one.start ≤ other.start

/-- If the dependees start later, the links ask for later dates. -/
theorem exists_later_boundDate (coherent : Coherent o net) (ordered : o.Ordered)
    (delayed : net.Delayed late) {id : TaskId}
    (earlier : ∀ source, Precedes o.hierarchy net source id → StartsLater o first second source)
    {date : Date} (told : date ∈ boundDates o first net .everyDay id) :
    ∃ after ∈ boundDates o second late .everyDay id, date ≤ after := by
  obtain ⟨link, member, under, dependee, own, there, ownIs, rfl⟩ := told
  obtain ⟨lag, longer, delayedIs⟩ := delayed.keeps link member
  have arrow : Precedes o.hierarchy net link.dependee id :=
    .link (Network.contains_of_mem member) under
  obtain ⟨task, found⟩ := Outline.exists_task?_iff.mpr
    (mem_ids_of_precedes coherent.forest coherent.liesOn arrow).1
  obtain ⟨one, other, oneIs, otherIs, moved, movedToo, later⟩ := earlier _ arrow task found
  obtain ⟨starts, ends⟩ := span_mono (ordered _ task found) moved movedToo later
  have same : dependee = one.span :=
    Option.some.inj (there.symm.trans (Outline.span?_of_task? oneIs))
  refine ⟨_, ⟨_, delayedIs, under, other.span, own, Outline.span?_of_task? otherIs, ownIs, rfl⟩, ?_⟩
  rw [Calendar.closestFrom_everyDay, Calendar.closestFrom_everyDay, same]
  exact link.relation.acceptable_mono starts ends longer own

/-- Of a task without subtasks: if what comes before it starts no earlier in the second pass, neither
does it. -/
theorem startsLater_of_sources {firstReport secondReport : ScheduleReport} (coherent : Coherent o net)
    (ordered : o.Ordered) (delayed : net.Delayed late)
    (pass : Passes (Flow.ofPlan o net) .everyDay o.ids o first {} firstReport)
    (passToo : Passes (Flow.ofPlan o late) .everyDay o.ids o second {} secondReport) {id : TaskId}
    (leaf : o.nested id = [])
    (earlier : ∀ source, Precedes o.hierarchy net source id → StartsLater o first second source) :
    StartsLater o first second id := by
  intro task found
  have known := Outline.exists_task?_iff.mp ⟨task, found⟩
  have coherentToo := delayed.coherent coherent
  obtain ⟨one, oneIs, moved, latest⟩ := pass.leaf_start coherent ordered found leaf
  obtain ⟨other, otherIs, movedToo, latestToo⟩ := passToo.leaf_start coherentToo ordered found leaf
  refine ⟨one, other, oneIs, otherIs, moved, movedToo, ?_⟩
  have bears : (boundDates o second late .everyDay id).Nonempty →
      (boundDates o first net .everyDay id).Nonempty := by
    rw [boundDates_nonempty_iff coherentToo passToo.redated.hierarchy known,
      boundDates_nonempty_iff coherent pass.redated.hierarchy known]
    rintro ⟨link, member, under⟩
    obtain ⟨lag, -, there⟩ := delayed.only link member
    exact ⟨_, there, under⟩
  obtain ⟨after, held, less⟩ := exists_later_heldDate
    (fun date told => exists_later_boundDate coherent ordered delayed earlier told) bears
    (delayed.pinned_iff id) latest.1
  exact Std.le_trans less (latestToo.2 held)

/-- Where every day is worked and no task lies in another, longer lags let no task start earlier. By
induction along the plan. -/
theorem delays_monotone (coherent : Coherent o net) (ordered : o.Ordered)
    (flat : ∀ id, o.nested id = []) (delayed : net.Delayed late) :
    ∃ first firstReport second secondReport,
      run true o net .everyDay = (first, .ok firstReport) ∧
      run true o late .everyDay = (second, .ok secondReport) ∧
      ∀ id ∈ o.ids, ∃ one other, first.task? id = some one ∧ second.task? id = some other ∧
        one.start ≤ other.start := by
  obtain ⟨first, firstReport, done, pass⟩ := run_spec coherent .everyDay
  obtain ⟨second, secondReport, doneToo, passToo⟩ := run_spec (delayed.coherent coherent) .everyDay
  have later : ∀ id, StartsLater o first second id := by
    intro id
    induction id using coherent.forwards with
    | step id earlier =>
      exact startsLater_of_sources coherent ordered delayed pass passToo (flat id) earlier
  refine ⟨first, firstReport, second, secondReport, done, doneToo, fun id known => ?_⟩
  obtain ⟨task, found⟩ := Outline.exists_task?_iff.mpr known
  obtain ⟨one, other, oneIs, otherIs, -, -, less⟩ := later id task found
  exact ⟨one, other, oneIs, otherIs, less⟩

end Passes

end Schedule

theorem Outline.nested_of_plain {o : Outline} (plain : ∀ node ∈ o.nodes.entries, node.nested = [])
    (id : TaskId) : o.nested id = [] := by
  unfold nested node?
  cases found : o.nodes.find? id with
  | none => rfl
  | some node => exact plain node (Catalog.mem_of_find? found).1

namespace Sample

/-! ## A chain of three tasks -/

/-- Three tasks side by side; the second starts two days after the first ends. -/
def chain : Except OutlineError Outline := do
  let o ← Outline.empty.add (task other (day 0) (day 3))
  let o ← o.add (task inner (day 5) (day 7))
  o.add (task outer (day 7) (day 8))

/-- The second task waits for the first, held loosely, and the third for the second. -/
def chainLinks (lag : Lag) : Network :=
  ((Network.empty {}).insertLink { key := ⟨inner, other⟩, hardness := .rubber, lag }).insertLink
    { key := ⟨outer, inner⟩ }

theorem coherent_chain {o : Outline} (built : chain = .ok o) :
    Coherent o (chainLinks .zero) ∧ o.Ordered := by
  unfold chain at built
  obtain ⟨_, one, rest⟩ := exists_ok_of_bind built
  obtain ⟨_, two, three⟩ := exists_ok_of_bind rest
  have coherent := (((coherent_empty {}).add_task one).add_task two).add_task three
  have ordered := Outline.ordered_add (Outline.ordered_add Outline.ordered_empty one) two
  refine ⟨(coherent.insertLink ?_ ?_ ?_).insertLink ?_ ?_ ?_, Outline.ordered_add ordered three⟩ <;>
    cases built <;> decide

theorem delayed_chainLinks {lag : Lag} (longer : 0 ≤ lag.days) :
    (chainLinks .zero).Delayed (chainLinks lag) := by
  have first := (Network.Delayed.refl (.empty {})).insertLink
    { key := ⟨inner, other⟩, hardness := .rubber, lag := .zero } longer
  exact first.insertLink { key := ⟨outer, inner⟩ } (Int.le_refl _)

end Sample

namespace Schedule

/-- A lag of four days makes the first link a violated one, and both tasks after it wait. -/
theorem delays_monotone_along_chain : ∃ o first firstReport second secondReport one other,
    Sample.chain = .ok o ∧
    run true o (Sample.chainLinks .zero) .everyDay = (first, .ok firstReport) ∧
    run true o (Sample.chainLinks { days := 4 }) .everyDay = (second, .ok secondReport) ∧
    firstReport.modified = [] ∧ secondReport.modified = [Sample.inner, Sample.outer] ∧
    first.task? Sample.outer = some one ∧ second.task? Sample.outer = some other ∧
    one.start ≤ other.start := by
  obtain ⟨o, built⟩ : ∃ o, Sample.chain = .ok o := ⟨_, rfl⟩
  obtain ⟨coherent, ordered⟩ := Sample.coherent_chain built
  have plain : ∀ node ∈ o.nodes.entries, node.nested = [] := by
    cases built
    decide
  have flat : ∀ id, o.nested id = [] := Outline.nested_of_plain plain
  have delayed : (Sample.chainLinks .zero).Delayed (Sample.chainLinks { days := 4 }) :=
    Sample.delayed_chainLinks (by decide)
  obtain ⟨first, firstReport, second, secondReport, done, doneToo, later⟩ :=
    delays_monotone coherent ordered flat delayed
  obtain ⟨one, other, oneIs, otherIs, less⟩ := later Sample.outer (by cases built; decide)
  have unmoved : (run true o (Sample.chainLinks .zero) .everyDay).2.toOption.map
      ScheduleReport.modified = some [] := by
    cases built
    decide
  have moved : (run true o (Sample.chainLinks { days := 4 }) .everyDay).2.toOption.map
      ScheduleReport.modified = some [Sample.inner, Sample.outer] := by
    cases built
    decide
  rw [done] at unmoved
  rw [doneToo] at moved
  exact ⟨o, first, firstReport, second, secondReport, one, other, built, done, doneToo,
    Option.some.inj unmoved, Option.some.inj moved, oneIs, otherIs, less⟩

end Schedule

end Workplan
