/-
# Workplan.Proofs.SteadyWalks — walks that do not give up

`worked` counts the working days from one date up to another. On a steady calendar, where working
days are never ten years apart, a walk finds every working day there is, so a shift passes, or
enters, exactly as many as it is asked to:

* `worked_add`, `worked_le_add`, `between_add` — counting by way of a third date;
* `steady_everyDay`, `steady_week` — steady calendars;
* `Steady.worked_shift_ahead`, `Steady.worked_shift_back` — what a shift counts;
* `worked_shift_back_le` — on any calendar, a shift back enters no more than it is asked to;
* `Steady.worked_shift_ahead_eq_zero`, `worked_shift_back_eq_zero` — a shift by the working days up
  to a date, and from a date on, leaves none between its end and that date;
* `Steady.length_shiftTo` — a task that is moved keeps its length.
-/
import Workplan.Proofs.Collisions

namespace Workplan

set_option autoImplicit false

namespace Calendar

/-- The number of working days from a date up to, and without, another; none if the other is not
later. -/
def worked (cal : Calendar) (a b : Date) : Nat := (cal.workedDays a.day b.day).card

variable {cal : Calendar} {a b c d : Date}

theorem mem_workedDays {first last day : Int} : day ∈ cal.workedDays first last ↔
    (first ≤ day ∧ day < last) ∧ cal.worksOn day = true := by
  rw [workedDays, Finset.mem_filter, mem_daysFrom]

theorem between_eq_worked (ordered : a ≤ b) : cal.between a b = cal.worked a b :=
  between_eq_card ordered

theorem length_eq_worked {span : Span} (ordered : span.start ≤ span.finish) :
    span.length cal = cal.worked span.start span.finish :=
  cal.length_eq_card ordered

/-! ## Counting -/

theorem worked_mono {a' b' : Date} (later : a ≤ a') (earlier : b' ≤ b) :
    cal.worked a' b' ≤ cal.worked a b := by
  refine Finset.card_le_card fun day member => ?_
  obtain ⟨⟨low, high⟩, works⟩ := mem_workedDays.mp member
  exact mem_workedDays.mpr
    ⟨⟨Int.le_trans later low, Int.lt_of_lt_of_le high earlier⟩, works⟩

theorem worked_of_le (reversed : b ≤ a) : cal.worked a b = 0 := by
  refine Finset.card_eq_zero.mpr (Finset.eq_empty_of_forall_notMem fun day member => ?_)
  obtain ⟨⟨low, high⟩, -⟩ := mem_workedDays.mp member
  rw [Date.le_iff] at reversed
  omega

/-- No more days are worked than there are dates before the last. -/
theorem worked_le (cal : Calendar) (a b : Date) : cal.worked a b ≤ 191491528 := by
  have bound := cal.card_workedDays_le a.day b.day
  have lower := a.firstDay_le
  have upper := b.le_lastDay
  rw [worked]
  omega

/-- By way of any third date, no working day is missed. -/
theorem worked_le_add (cal : Calendar) (a b c : Date) :
    cal.worked a c ≤ cal.worked a b + cal.worked b c := by
  refine (Finset.card_le_card fun day member => ?_).trans (Finset.card_union_le _ _)
  obtain ⟨⟨low, high⟩, works⟩ := mem_workedDays.mp member
  rw [Finset.mem_union, mem_workedDays, mem_workedDays]
  rcases Int.lt_or_le day b.day with before | after
  · exact .inl ⟨⟨low, before⟩, works⟩
  · exact .inr ⟨⟨after, high⟩, works⟩

theorem worked_add (first : a ≤ b) (second : b ≤ c) :
    cal.worked a c = cal.worked a b + cal.worked b c := by
  have apart : Disjoint (cal.workedDays a.day b.day) (cal.workedDays b.day c.day) := by
    refine Finset.disjoint_left.mpr fun day left right => ?_
    obtain ⟨⟨-, before⟩, -⟩ := mem_workedDays.mp left
    obtain ⟨⟨after, -⟩, -⟩ := mem_workedDays.mp right
    omega
  refine Nat.le_antisymm (worked_le_add ..) ?_
  rw [worked, worked, ← Finset.card_union_of_disjoint apart]
  refine Finset.card_le_card (Finset.union_subset ?_ ?_)
  · exact cal.workedDays_mono _ second
  · intro day member
    obtain ⟨⟨low, high⟩, works⟩ := mem_workedDays.mp member
    exact mem_workedDays.mpr ⟨⟨Int.le_trans first low, high⟩, works⟩

theorem worked_pos (from_a : a ≤ d) (before : d < b) (works : cal.works d = true) :
    0 < cal.worked a b :=
  Finset.card_pos.mpr ⟨d.day, mem_workedDays.mpr ⟨⟨from_a, before⟩, worksOn_day .. ▸ works⟩⟩

/-- A count that is not zero has a working day to show. -/
theorem exists_works (some : 0 < cal.worked a b) : ∃ d, a ≤ d ∧ d < b ∧ cal.works d = true := by
  obtain ⟨day, member⟩ := Finset.card_pos.mp some
  obtain ⟨⟨low, high⟩, works⟩ := mem_workedDays.mp member
  obtain ⟨d, found, works⟩ := (Option.any_eq_true ..).mp works
  rw [← Date.day_of_ofDay? found] at low high
  exact ⟨d, low, high, works⟩

theorem worked_next (inside : d < Date.last) :
    cal.worked d d.next = if cal.works d = true then 1 else 0 := by
  have next : d.next.day = d.day + 1 := by
    have less := Date.lt_iff.mp inside
    rw [Date.day_next]
    omega
  have none : cal.workedDays (d.day + 1) (d.day + 1) = ∅ :=
    Finset.eq_empty_of_forall_notMem fun day member => by
      obtain ⟨⟨low, high⟩, -⟩ := mem_workedDays.mp member
      omega
  rw [worked, next, workedDays_left (by omega), none, worksOn_day]
  split <;> rfl

/-! ## Counting either way -/

/-- A count is the difference of what is worked before its two dates. -/
theorem between_eq_sub (cal : Calendar) (a b : Date) :
    cal.between a b = (cal.worked Date.first b : Int) - cal.worked Date.first a := by
  by_cases ordered : a ≤ b
  · have total := cal.worked_add (Date.first_le a) ordered
    rw [between_eq_worked ordered]
    omega
  · have reversed : b ≤ a := Std.le_of_lt (Std.not_le.mp ordered)
    have total := cal.worked_add (Date.first_le b) reversed
    have forward := cal.between_eq_worked reversed
    rw [between, if_pos reversed] at forward
    rw [between, if_neg ordered, forward]
    omega

theorem between_add (cal : Calendar) (a b c : Date) :
    cal.between a b + cal.between b c = cal.between a c := by
  rw [between_eq_sub, between_eq_sub, between_eq_sub]
  omega

theorem between_swap (cal : Calendar) (a b : Date) : cal.between b a = -cal.between a b := by
  rw [between_eq_sub, between_eq_sub]
  omega

theorem between_mono (cal : Calendar) (a : Date) (later : b ≤ c) :
    cal.between a b ≤ cal.between a c := by
  have more := cal.worked_mono (Std.le_refl Date.first) later
  rw [between_eq_sub, between_eq_sub]
  omega

theorem between_nonneg_of_le (cal : Calendar) (ordered : a ≤ b) : 0 ≤ cal.between a b := by
  rw [between_eq_worked ordered]
  exact Int.natCast_nonneg _

/-- A working day on the way is counted. -/
theorem between_lt (a : Date) (after : b ≤ d) (before : d < c) (works : cal.works d = true) :
    cal.between a b < cal.between a c := by
  have some := cal.worked_pos after before works
  have total := cal.worked_add (Date.first_le b) (Std.le_trans after (Std.le_of_lt before))
  rw [between_eq_sub, between_eq_sub]
  omega

/-! ## Looking for a working day -/

/-- Of as many days in a row as a walk has patience for, some day is a working day. -/
def Steady (cal : Calendar) : Prop :=
  ∀ d : Date, d.day + patience ≤ Date.last.day + 1 →
    ∃ w : Date, d ≤ w ∧ w.day < d.day + patience ∧ cal.works w = true

theorem steady_everyDay : everyDay.Steady :=
  fun d _ => ⟨d, Std.le_refl d, Int.lt_add_of_pos_right _ (by decide), rfl⟩

theorem exists_fromMonday (day : Weekday) : ∃ count < 7, Weekday.fromMonday count = day := by
  cases day <;> decide

/-- A week without holidays is steady, unless all its days are off. -/
theorem steady_week {week : WorkWeek} {day : Weekday} (works : day ∉ week.daysOff)
    (none : ∀ d, week.holidays.contains d = false) : week.calendar.Steady := by
  obtain ⟨count, small, rfl⟩ := exists_fromMonday day
  intro d room
  have lower : -95745824 ≤ d.day := d.firstDay_le
  simp only [Date.last, patience] at room
  have ahead : 0 ≤ (count - 2 - d.day) % 7 ∧ (count - 2 - d.day) % 7 < 7 := by omega
  refine ⟨⟨d.day + (count - 2 - d.day) % 7, by omega, by omega⟩, Date.le_iff.mpr ?_, ?_, ?_⟩
  · show d.day ≤ d.day + (count - 2 - d.day) % 7
    omega
  · show d.day + (count - 2 - d.day) % 7 < d.day + patience
    simp only [patience]
    omega
  · have same : (d.day + (count - 2 - d.day) % 7 + 2) % 7 = count := by omega
    simp [WorkWeek.calendar, WorkWeek.works, Date.weekday, same, works, none]

theorem works_of_workingFrom? {days : Nat} {found : Date}
    (search : cal.workingFrom? days d = some found) :
    cal.works found = true ∧ cal.worked d found = 0 := by
  induction days generalizing d with
  | zero => contradiction
  | succ days ih =>
    simp only [workingFrom?] at search
    split at search
    · rename_i works
      cases search
      exact ⟨works, worked_of_le (Std.le_refl _)⟩
    · rename_i off
      obtain ⟨works, none⟩ := ih search
      have total := cal.worked_le_add d d.next found
      have here : cal.worked d d.next = 0 := by
        by_cases inside : d < Date.last
        · rw [worked_next inside, if_neg off]
        · exact worked_of_le (Std.le_trans d.next.le_last (Std.not_lt.mp inside))
      exact ⟨works, by omega⟩

theorem works_of_workingTo? {days : Nat} {found : Date}
    (search : cal.workingTo? days d = some found) : cal.works found = true := by
  induction days generalizing d with
  | zero => contradiction
  | succ days ih =>
    simp only [workingTo?] at search
    split at search
    · rename_i works
      cases search
      exact works
    · exact ih search

theorem workingFrom?_spec {days : Nat}
    (near : ∃ w : Date, d ≤ w ∧ w.day < d.day + days ∧ cal.works w = true) :
    ∃ found, cal.workingFrom? days d = some found ∧ cal.works found = true ∧
      cal.worked d found = 0 := by
  suffices finds : ∃ found, cal.workingFrom? days d = some found by
    obtain ⟨found, search⟩ := finds
    exact ⟨found, search, works_of_workingFrom? search⟩
  induction days generalizing d with
  | zero =>
    obtain ⟨w, after, before, -⟩ := near
    rw [Date.le_iff] at after
    omega
  | succ days ih =>
    simp only [workingFrom?]
    split
    · exact ⟨d, rfl⟩
    · rename_i off
      obtain ⟨w, after, before, works⟩ := near
      rw [Date.le_iff] at after
      have differ : w.day ≠ d.day := fun same => off (Date.ext same ▸ works)
      have limit : w.day ≤ Date.last.day := w.le_lastDay
      have next := d.day_next
      exact ih ⟨w, Date.le_iff.mpr (by omega), by omega, works⟩

theorem workingTo?_spec {days : Nat}
    (near : ∃ w : Date, w ≤ d ∧ d.day < w.day + days ∧ cal.works w = true) :
    ∃ found, cal.workingTo? days d = some found ∧ cal.works found = true := by
  induction days generalizing d with
  | zero =>
    obtain ⟨w, before, after, -⟩ := near
    rw [Date.le_iff] at before
    omega
  | succ days ih =>
    simp only [workingTo?]
    split
    · rename_i works
      exact ⟨d, rfl, works⟩
    · rename_i off
      obtain ⟨w, before, after, works⟩ := near
      rw [Date.le_iff] at before
      have differ : w.day ≠ d.day := fun same => off (Date.ext same ▸ works)
      have limit : Date.first.day ≤ w.day := w.firstDay_le
      have previous := d.day_prev
      exact ih ⟨w, Date.le_iff.mpr (by omega), by omega, works⟩

/-- Where there is a working day at all, there is one within the patience of a walk. -/
theorem Steady.exists_near (steady : cal.Steady) (some : ∃ w, d ≤ w ∧ cal.works w = true) :
    ∃ w : Date, d ≤ w ∧ w.day < d.day + patience ∧ cal.works w = true := by
  by_cases room : d.day + patience ≤ Date.last.day + 1
  · exact steady d room
  · obtain ⟨w, after, works⟩ := some
    have limit : w.day ≤ Date.last.day := w.le_lastDay
    exact ⟨w, after, by omega, works⟩

theorem Steady.exists_workingFrom? (steady : cal.Steady)
    (some : ∃ w, d ≤ w ∧ cal.works w = true) :
    ∃ found, cal.workingFrom? (patience + 1) d = .some found ∧ cal.works found = true ∧
      cal.worked d found = 0 := by
  obtain ⟨w, after, before, works⟩ := steady.exists_near some
  exact workingFrom?_spec ⟨w, after, by omega, works⟩

theorem Steady.exists_workingTo? (steady : cal.Steady)
    (some : ∃ w, w ≤ d ∧ cal.works w = true) :
    ∃ found, cal.workingTo? (patience + 1) d = .some found ∧ cal.works found = true := by
  refine workingTo?_spec ?_
  have upper : d.day ≤ Date.last.day := d.le_lastDay
  by_cases room : Date.first.day ≤ d.day - patience
  -- the days that end with `d` are as many as a walk has patience for
  · have inside : -95745824 ≤ d.day - patience + 1 ∧ d.day - patience + 1 ≤ 95745704 := by
      simp only [Date.first, Date.last, patience] at room upper ⊢
      omega
    obtain ⟨w, after, before, works⟩ := steady ⟨_, inside.1, inside.2⟩ (by
      show d.day - patience + 1 + patience ≤ Date.last.day + 1
      omega)
    have low : d.day - patience + 1 ≤ w.day := after
    have high : w.day < d.day - patience + 1 + patience := before
    exact ⟨w, Date.le_iff.mpr (by omega), by omega, works⟩
  · obtain ⟨w, before, works⟩ := some
    have limit : Date.first.day ≤ w.day := w.firstDay_le
    exact ⟨w, before, by omega, works⟩

/-! ## Walking -/

/-- A walk forward that passes no more working days than there are left passes them all. -/
theorem Steady.ahead?_spec (steady : cal.Steady) {count : Nat}
    (enough : count ≤ cal.worked d Date.last) :
    ∃ reached, cal.ahead? count d = some reached ∧ cal.worked d reached = count := by
  induction count generalizing d with
  | zero => exact ⟨d, rfl, worked_of_le (Std.le_refl d)⟩
  | succ count ih =>
    obtain ⟨w, after, -, works⟩ := exists_works (Nat.lt_of_lt_of_le (Nat.succ_pos count) enough)
    obtain ⟨found, search, worksThere, none⟩ := steady.exists_workingFrom? ⟨w, after, works⟩
    have start := le_workingFrom? search
    have inside : found < Date.last := by
      refine Std.not_le.mp fun reversed => ?_
      have fewer := cal.worked_mono (Std.le_refl d) reversed
      omega
    have one : cal.worked found found.next = 1 := by rw [worked_next inside, if_pos worksThere]
    have step := cal.worked_add start (le_next found)
    have rest := cal.worked_add (Std.le_trans start (le_next found)) found.next.le_last
    obtain ⟨reached, walk, exact⟩ := ih (d := found.next) (by omega)
    have total := cal.worked_add (Std.le_trans start (le_next found)) (le_ahead? walk)
    exact ⟨reached, by rw [ahead?, search]; exact walk, by omega⟩

/-- The day found going back is the only working day from it up to where the search came from. -/
theorem worked_workingTo?_le {days : Nat} {found : Date}
    (search : cal.workingTo? days d.prev = some found) : cal.worked found d ≤ 1 := by
  rw [worked, Finset.card_le_one_iff_subset_singleton]
  refine ⟨found.day, fun day member => ?_⟩
  obtain ⟨⟨low, high⟩, works⟩ := mem_workedDays.mp member
  rw [Finset.mem_singleton]
  by_contra differ
  have previous := d.day_prev
  have off : cal.worksOn day = false := not_worksOn_of_workingTo? search (by omega) (by omega)
  rw [off] at works
  contradiction

theorem worked_back?_le {count : Nat} {reached : Date} (walk : cal.back? count d = some reached) :
    cal.worked reached d ≤ count := by
  induction count generalizing d with
  | zero =>
    cases walk
    exact Nat.le_of_eq (worked_of_le (Std.le_refl _))
  | succ count ih =>
    simp only [back?] at walk
    split at walk
    · rename_i found search
      have one := worked_workingTo?_le search
      have total := cal.worked_le_add reached found d
      have rest := ih walk
      omega
    · contradiction

/-- A walk back that enters no more working days than there are enters them all. -/
theorem Steady.back?_spec (steady : cal.Steady) {count : Nat}
    (enough : count ≤ cal.worked a d) :
    ∃ reached, cal.back? count d = some reached ∧ cal.worked reached d = count := by
  induction count generalizing d with
  | zero => exact ⟨d, rfl, worked_of_le (Std.le_refl d)⟩
  | succ count ih =>
    obtain ⟨w, after, before, works⟩ :=
      exists_works (Nat.lt_of_lt_of_le (Nat.succ_pos count) enough)
    have previous := d.day_prev
    have limit : Date.first.day ≤ w.day := w.firstDay_le
    have less := Date.lt_iff.mp before
    have start : w ≤ d.prev := Date.le_iff.mpr (by omega)
    obtain ⟨found, search, worksThere⟩ := steady.exists_workingTo? ⟨w, start, works⟩
    have earlier := Date.le_iff.mp (workingTo?_le search)
    have inside : found < d := Date.lt_iff.mpr (by omega)
    have most := worked_workingTo?_le search
    have least := worked_pos (Std.le_refl found) inside worksThere
    have total := cal.worked_le_add a found d
    obtain ⟨reached, walk, exact⟩ := ih (d := found) (by omega)
    have way := cal.worked_add (back?_le walk) (Std.le_of_lt inside)
    exact ⟨reached, by rw [back?, search]; exact walk, by omega⟩

/-! ## Shifts -/

theorem Steady.worked_shift_ahead (steady : cal.Steady) {count : Nat}
    (enough : count ≤ cal.worked d Date.last) : cal.worked d (cal.shift d count) = count := by
  obtain ⟨reached, walk, exact⟩ := steady.ahead?_spec enough
  rw [shift, if_pos (Int.natCast_nonneg count), Int.natAbs_natCast, walk, Option.getD_some, exact]

theorem shift_neg {count : Nat} : cal.shift d (-count) =
    (cal.back? count d).getD (d.addDays (-count)) := by
  rcases Nat.eq_zero_or_pos count with rfl | positive
  · rfl
  · rw [shift, if_neg (by omega), Int.natAbs_neg, Int.natAbs_natCast]

theorem Steady.worked_shift_back (steady : cal.Steady) {count : Nat}
    (enough : count ≤ cal.worked a d) : cal.worked (cal.shift d (-count)) d = count := by
  obtain ⟨reached, walk, exact⟩ := steady.back?_spec enough
  rw [shift_neg, walk, Option.getD_some, exact]

theorem worked_shift_back_le (cal : Calendar) (d : Date) (count : Nat) :
    cal.worked (cal.shift d (-count)) d ≤ count := by
  rw [shift_neg]
  cases walk : cal.back? count d with
  | some reached => exact worked_back?_le walk
  | none =>
    rcases d.day_addDays (-count) with exact | same
    · have short := cal.card_workedDays_le (d.addDays (-count)).day d.day
      rw [Option.getD_none, worked]
      omega
    · rw [Option.getD_none, same, worked_of_le (Std.le_refl d)]
      exact Nat.zero_le count

/-- Going on by at least the working days up to a date leaves none before it. -/
theorem Steady.worked_shift_ahead_eq_zero (steady : cal.Steady) {count : Nat}
    (few : cal.worked a d ≤ count) (room : count ≤ cal.worked d Date.last) :
    cal.worked (cal.shift a count) d = 0 := by
  by_cases passed : d ≤ cal.shift a count
  · exact worked_of_le passed
  · have before : cal.shift a count ≤ d := Std.le_of_lt (Std.not_le.mp passed)
    have start : a ≤ cal.shift a count := cal.le_shift a (Int.natCast_nonneg count)
    have enough := cal.worked_mono (Std.le_trans start before) (Std.le_refl Date.last)
    have exact := steady.worked_shift_ahead (Nat.le_trans room enough)
    have total := cal.worked_add start before
    omega

/-- Going back by at most the working days from a date on leaves none behind it, on any calendar. -/
theorem worked_shift_back_eq_zero {count : Nat} (enough : count ≤ cal.worked a d)
    (none : cal.worked d a = 0) : cal.worked (cal.shift d (-count)) a = 0 := by
  by_cases ordered : a ≤ d
  · exact worked_of_le (cal.le_shift_back ordered enough)
  · have zero : count = 0 := by
      rw [worked_of_le (Std.le_of_lt (Std.not_le.mp ordered))] at enough
      exact Nat.le_zero.mp enough
    rw [zero]
    exact none

/-- A task that is moved keeps its length, if the calendar has as many working days left. -/
theorem Steady.length_shiftTo (steady : cal.Steady) {task : Task} {start : Date}
    (room : task.span.length cal ≤ cal.between start Date.last) :
    (task.shiftTo start cal).span.length cal = task.span.length cal := by
  obtain ⟨count, length⟩ := Int.eq_ofNat_of_zero_le (task.span.length_nonneg cal)
  rw [between_eq_worked start.le_last, length, Int.ofNat_le] at room
  rw [Task.span_shiftTo, length, length_eq_worked (cal.le_shift start (Int.natCast_nonneg count))]
  exact congrArg _ (steady.worked_shift_ahead room)

end Calendar

end Workplan
