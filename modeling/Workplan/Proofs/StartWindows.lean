/-
# Workplan.Proofs.StartWindows — the window for a start, by its dates

Links only hold a start back, so the windows they leave never close. `OpensAt` tells such a window by
the dates that are asked for: it opens with the latest of them. Windows of this kind always meet,
which is why a task without subtasks is never skipped.

* `OpensAt.intersect`, `OpensAt.linked` — the dates that are asked for together;
* `opensAt_startWindow` — the window of a task without subtasks;
* `startWindow_eq_between` — a container whose demands come no later than its subtasks keeps their
  dates.
-/
import Mathlib.Data.Set.Insert
import Mathlib.Order.Bounds.Defs
import Mathlib.Tactic.Tauto
import Workplan.Schedule

namespace Workplan

set_option autoImplicit false

namespace Window

/-- The window opens with the latest of the dates, or has no bound if there are none. -/
inductive OpensAt : Option Window → Set Date → Prop where
  | all {dates : Set Date} : dates = ∅ → OpensAt (some all) dates
  | latest {date : Date} {dates : Set Date} : IsGreatest dates date →
      OpensAt (some (atLeast date)) dates

theorem greatest_unique {dates : Set Date} {a b : Date} (one : IsGreatest dates a)
    (two : IsGreatest dates b) : a = b :=
  Std.le_antisymm (two.2 one.1) (one.2 two.1)

theorem least_unique {dates : Set Date} {a b : Date} (one : IsLeast dates a)
    (two : IsLeast dates b) : a = b :=
  Std.le_antisymm (one.2 two.1) (two.2 one.1)

theorem isGreatest_one (date : Date) : IsGreatest {date} date :=
  ⟨rfl, fun _ same => same ▸ Std.le_refl date⟩

theorem isGreatest_union_max {a b : Date} {S T : Set Date} (left : IsGreatest S a)
    (right : IsGreatest T b) : IsGreatest (S ∪ T) (max a b) := by
  have bounds : a ≤ max a b ∧ b ≤ max a b := max_le_iff.mp (Std.le_refl (max a b))
  constructor
  · rcases Std.MaxEqOr.max_eq_or a b with same | same
    · rw [same]
      exact .inl left.1
    · rw [same]
      exact .inr right.1
  · rintro date (inLeft | inRight)
    · exact Std.le_trans (left.2 inLeft) bounds.1
    · exact Std.le_trans (right.2 inRight) bounds.2

theorem OpensAt.intersect {v w : Window} {S T : Set Date} (left : OpensAt (some v) S)
    (right : OpensAt (some w) T) : OpensAt (v.intersect w) (S ∪ T) := by
  rcases left with none | greatest
  · subst none
    rw [Set.empty_union]
    rcases right with none | greatest
    · exact .all none
    · exact .latest greatest
  · rcases right with none | other
    · subst none
      rw [Set.union_empty]
      exact .latest greatest
    · exact .latest (isGreatest_union_max greatest other)

theorem opensAt_atLeast (date : Date) : OpensAt (some (atLeast date)) {date} :=
  .latest (isGreatest_one date)

theorem OpensAt.exists_window {w : Option Window} {dates : Set Date} (opens : OpensAt w dates) :
    ∃ window, w = some window := by
  cases opens with
  | all => exact ⟨_, rfl⟩
  | latest => exact ⟨_, rfl⟩

theorem OpensAt.isAll_iff {w : Window} {dates : Set Date} (opens : OpensAt (some w) dates) :
    w.isAll = true ↔ dates = ∅ := by
  cases opens with
  | all none => simp [none, isAll]
  | latest greatest =>
    have some : dates ≠ ∅ := Set.nonempty_iff_ne_empty.mp ⟨_, greatest.1⟩
    simp [some, isAll, Window.all, atLeast]

/-- Confining such a window leaves nothing if a date that is asked for comes after the confines, and
else it opens no earlier than they do. -/
theorem OpensAt.intersect_between {w : Window} {dates : Set Date} (opens : OpensAt (some w) dates)
    {first last : Date} (ordered : first ≤ last) :
    (w.intersect (between first last) = none ∧ ∃ date ∈ dates, last < date) ∨
      ∃ start, w.intersect (between first last) = some (between start last) ∧ start ≤ last ∧
        IsGreatest (dates ∪ {first}) start := by
  cases opens with
  | all none =>
    subst none
    refine .inr ⟨first, ?_, ordered, ?_⟩
    · have bounds : Window.all.intersect (between first last) =
          if last < first then none else some (between first last) := rfl
      rw [bounds, if_neg (Std.not_lt.mpr ordered)]
    · rw [Set.empty_union]
      exact isGreatest_one first
  | @latest date _ greatest =>
    have bounds : (atLeast date).intersect (between first last) =
        if last < max date first then none else some (between (max date first) last) := rfl
    by_cases late : last < max date first
    · refine .inl ⟨by rw [bounds, if_pos late], date, greatest.1, Std.not_le.mp fun early => ?_⟩
      exact Std.not_lt.mpr (max_le_iff.mpr ⟨early, ordered⟩) late
    · exact .inr ⟨max date first, by rw [bounds, if_neg late], Std.not_lt.mp late,
        isGreatest_union_max greatest (isGreatest_one first)⟩

end Window

namespace Schedule

open Window

/-- The dates that strong and weak demands ask for together; weak ones alone also ask for a floor. -/
def linkedDates (strong weak : Set Date) (floor : Date) : Set Date :=
  strong ∪ weak ∪ {date | strong = ∅ ∧ weak.Nonempty ∧ date = floor}

theorem OpensAt.linked {v w : Window} {S T : Set Date} (strong : OpensAt (some v) S)
    (weak : OpensAt (some w) T) (floor : Date) :
    OpensAt (linked v w floor) (linkedDates S T floor) := by
  unfold Schedule.linked
  by_cases noStrong : S = ∅
  · have allStrong := strong.isAll_iff.mpr noStrong
    by_cases noWeak : T = ∅
    · have allWeak := weak.isAll_iff.mpr noWeak
      have none : linkedDates S T floor = ∅ := by
        simp [linkedDates, noStrong, noWeak]
      simpa [allStrong, allWeak] using OpensAt.all none
    · have someWeak : w.isAll = false := by
        rw [← Bool.not_eq_true, weak.isAll_iff]
        exact noWeak
      have both : linkedDates S T floor = T ∪ {floor} := by
        ext date
        simp [linkedDates, noStrong, Set.nonempty_iff_ne_empty.mpr noWeak]
      rw [both]
      simpa [allStrong, someWeak] using weak.intersect (opensAt_atLeast floor)
  · have someStrong : v.isAll = false := by
      rw [← Bool.not_eq_true, strong.isAll_iff]
      exact noStrong
    have both : linkedDates S T floor = S ∪ T := by
      ext date
      simp [linkedDates, noStrong]
    rw [both]
    simpa [someStrong] using strong.intersect weak

/-- All dates that are asked of the start of a task, except by its subtasks. -/
def startDates (strong weak : Set Date) (floor : Date) (earliest : Option Date) : Set Date :=
  linkedDates strong weak floor ∪ {date | earliest = some date}

theorem startDates_of_strong {S T : Set Date} (some : S.Nonempty) (floor : Date)
    (earliest : Option Date) :
    startDates S T floor earliest = S ∪ T ∪ {date | earliest = .some date} := by
  ext date
  simp [startDates, linkedDates, some.ne_empty]

theorem startDates_of_weak {T : Set Date} (some : T.Nonempty) (floor : Date)
    (earliest : Option Date) :
    startDates ∅ T floor earliest = ∅ ∪ T ∪ {date | earliest = .some date ∨ date = floor} := by
  ext date
  simp only [startDates, linkedDates, some, Set.mem_union, Set.mem_ofPred_eq, true_and]
  tauto

/-- Weak dates that are strong too make no difference. -/
theorem startDates_union (S T : Set Date) (floor : Date) (earliest : Option Date) :
    startDates S (S ∪ T) floor earliest = startDates S T floor earliest := by
  rcases Set.eq_empty_or_nonempty S with rfl | some
  · rw [Set.empty_union]
  · rw [startDates_of_strong some, startDates_of_strong some, ← Set.union_assoc, Set.union_self]

/-- If no strong demand asks for a date before the floor, the floor always counts with the rest. -/
theorem isGreatest_of_floor {S T : Set Date} {floor date : Date} {earliest : Option Date}
    (latest : (startDates S T floor earliest).Nonempty →
      IsGreatest (startDates S T floor earliest) date)
    (late : ∀ other ∈ S, floor ≤ other) (held : (S ∪ T).Nonempty) :
    IsGreatest (S ∪ T ∪ {other | earliest = some other ∨ other = floor}) date := by
  rcases Set.eq_empty_or_nonempty S with empty | violated
  · rw [empty] at held latest ⊢
    rw [Set.empty_union] at held
    rw [startDates_of_weak held] at latest
    exact latest (held.inr.inl)
  · rw [startDates_of_strong violated] at latest
    have greatest := latest (violated.inl.inl)
    obtain ⟨other, member⟩ := violated
    refine ⟨greatest.1.imp_right .inl, ?_⟩
    rintro any (bound | asked | rfl)
    · exact greatest.2 (.inl bound)
    · exact greatest.2 (.inr asked)
    · exact Std.le_trans (late other member) (greatest.2 (.inl (.inl member)))

/-- The window of a start before the subtasks confine it. -/
theorem exists_unconfined {d : Demands} {S T : Set Date} (strong : OpensAt d.strong S)
    (weak : OpensAt d.weak T) (task : Task) : ∃ start,
      OpensAt (some start)
        (startDates S T (min (covered d task).1 task.start) task.earliestStart) ∧
      startWindow d task =
        if d.subtaskDates = [] then some start
        else start.intersect (.between (covered d task).1 (covered d task).2) := by
  obtain ⟨v, strongIs⟩ := strong.exists_window
  obtain ⟨w, weakIs⟩ := weak.exists_window
  rw [strongIs] at strong
  rw [weakIs] at weak
  have linkedOpens := OpensAt.linked strong weak (min (covered d task).1 task.start)
  obtain ⟨both, linkedIs⟩ := linkedOpens.exists_window
  rw [linkedIs] at linkedOpens
  cases earliest : task.earliestStart with
  | none =>
    refine ⟨both, ?_, ?_⟩
    · have same : ({date | none = some date} : Set Date) = ∅ := by simp
      rw [startDates, same, Set.union_empty]
      exact linkedOpens
    · simp [startWindow, strongIs, weakIs, linkedIs, earliest]
  | some date =>
    have bounded := linkedOpens.intersect (opensAt_atLeast date)
    obtain ⟨start, startIs⟩ := bounded.exists_window
    rw [startIs] at bounded
    refine ⟨start, ?_, ?_⟩
    · have same : ({other | some date = some other} : Set Date) = {date} := by
        ext other
        simp [eq_comm]
      rw [startDates, same]
      exact bounded
    · simp [startWindow, strongIs, weakIs, linkedIs, earliest, startIs]

theorem covered_of_leaf {d : Demands} (leaf : d.subtaskDates = []) (task : Task) :
    covered d task = (task.start, task.finish) := by
  simp [covered, leaf]

/-- The window of a task without subtasks is never empty. -/
theorem opensAt_startWindow {d : Demands} {S T : Set Date} (strong : OpensAt d.strong S)
    (weak : OpensAt d.weak T) (leaf : d.subtaskDates = []) (task : Task) :
    OpensAt (startWindow d task) (startDates S T task.start task.earliestStart) := by
  obtain ⟨start, opens, startIs⟩ := exists_unconfined strong weak task
  have own : min task.start task.start = task.start := Std.min_self
  rw [covered_of_leaf leaf, own] at opens
  rw [startIs, if_pos leaf]
  exact opens

theorem covered_spec {d : Demands} (nested : d.subtaskDates ≠ []) (task : Task) :
    (covered d task).1 ∈ d.subtaskDates ∧ (covered d task).2 ∈ d.subtaskDates ∧
      ∀ date ∈ d.subtaskDates, (covered d task).1 ≤ date ∧ date ≤ (covered d task).2 := by
  obtain ⟨first, firstIs⟩ := Option.isSome_iff_exists.mp (List.isSome_min?_iff.mpr nested)
  obtain ⟨last, lastIs⟩ := Option.isSome_iff_exists.mp (List.isSome_max?_iff.mpr nested)
  obtain ⟨firstMember, least⟩ := List.min?_eq_some_iff.mp firstIs
  obtain ⟨lastMember, greatest⟩ := List.max?_eq_some_iff.mp lastIs
  rw [covered, firstIs, lastIs]
  exact ⟨firstMember, lastMember, fun date member => ⟨least date member, greatest date member⟩⟩

/-- A container whose demands come no later than the first date of its subtasks takes their dates. -/
theorem startWindow_eq_between {d : Demands} {S T : Set Date} (strong : OpensAt d.strong S)
    (weak : OpensAt d.weak T) (nested : d.subtaskDates ≠ []) {task : Task}
    (early : ∀ date, date ∈ S ∨ date ∈ T ∨ task.earliestStart = some date →
      date ≤ (covered d task).1) :
    startWindow d task = some (.between (covered d task).1 (covered d task).2) := by
  obtain ⟨start, opens, startIs⟩ := exists_unconfined strong weak task
  obtain ⟨firstMember, -, bounds⟩ := covered_spec nested task
  have ordered := (bounds _ firstMember).2
  have floor : min (covered d task).1 task.start ≤ (covered d task).1 :=
    (le_min_iff.mp (Std.le_refl (min (covered d task).1 task.start))).1
  have inTime : ∀ date ∈ startDates S T (min (covered d task).1 task.start) task.earliestStart,
      date ≤ (covered d task).1 := by
    rintro date (((inStrong | inWeak) | ⟨-, -, rfl⟩) | earliest)
    · exact early date (.inl inStrong)
    · exact early date (.inr (.inl inWeak))
    · exact floor
    · exact early date (.inr (.inr earliest))
  rw [startIs, if_neg nested]
  rcases opens.intersect_between ordered with ⟨-, date, asked, late⟩ | ⟨first, window, -, greatest⟩
  · exact absurd late (Std.not_lt.mpr (Std.le_trans (inTime date asked) ordered))
  · have same : first = (covered d task).1 := by
      refine greatest_unique greatest ⟨.inr rfl, ?_⟩
      rintro date (asked | rfl)
      · exact inTime date asked
      · exact Std.le_refl _
    rw [window, same]

end Schedule

end Workplan
