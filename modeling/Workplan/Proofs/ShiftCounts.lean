/-
# Workplan.Proofs.ShiftCounts — a shift is settled by what it counts

Counting working days is additive by way of any third date, on any calendar. Where a calendar is steady
and has days enough for a shift, the shift forward leads to the first date that has so many working days
before it, and the shift back to the last date that has so many after it:

* `HasDays` — days enough for a shift; `hasDays_of_ahead?`, `hasDays_of_back?` — these are there
  whenever a walk ends before it meets an end of the calendar;
* `Steady.between_shift` — a shift counts what it is asked to;
* `Steady.shift_le_iff`, `Steady.le_shift_iff` — which dates lie beyond the end of a shift;
* `shift_counts` — shifting and counting are two views of the same walk.
-/
import Workplan.Proofs.Slack

namespace Workplan.Calendar

set_option autoImplicit false

variable {cal : Calendar} {a b d e : Date} {m n : Int}

/-! ## Days enough for a shift -/

/-- As many working days lie after a date, or before it, as a shift counts. -/
def HasDays (cal : Calendar) (d : Date) (days : Int) : Prop :=
  cal.between d Date.first ≤ days ∧ days ≤ cal.between d Date.last

theorem hasDays_zero (cal : Calendar) (d : Date) : cal.HasDays d 0 := by
  have none := cal.between_self d
  have back := cal.between_mono d d.first_le
  have ahead := cal.between_mono d d.le_last
  exact ⟨by omega, by omega⟩

theorem HasDays.of_between (back : cal.between d a ≤ n) (ahead : n ≤ cal.between d b) :
    cal.HasDays d n :=
  ⟨Int.le_trans (cal.between_mono d a.first_le) back,
    Int.le_trans ahead (cal.between_mono d b.le_last)⟩

/-- Days enough for a shift are enough for a shorter one in the same direction. -/
theorem HasDays.mono (enough : cal.HasDays d n) (shorter : 0 ≤ m ∧ m ≤ n ∨ n ≤ m ∧ m ≤ 0) :
    cal.HasDays d m := by
  obtain ⟨back, ahead⟩ := enough
  obtain ⟨backNone, aheadNone⟩ := cal.hasDays_zero d
  exact ⟨by omega, by omega⟩

/-- A walk forward that ends before the last date has passed as many working days as it was asked to. -/
theorem hasDays_of_ahead? {count : Nat} {reached : Date} (walk : cal.ahead? count d = some reached)
    (inside : reached < Date.last) : cal.HasDays d count := by
  suffices passed : cal.worked d reached = count by
    have ahead := cal.between_mono d reached.le_last
    rw [between_eq_worked (le_ahead? walk), passed] at ahead
    have back := (cal.hasDays_zero d).1
    exact ⟨by omega, ahead⟩
  induction count generalizing d with
  | zero =>
    cases walk
    exact worked_of_le (Std.le_refl _)
  | succ count ih =>
    simp only [ahead?] at walk
    split at walk
    · rename_i found search
      obtain ⟨works, none⟩ := works_of_workingFrom? search
      have start := le_workingFrom? search
      have foundInside : found < Date.last :=
        Std.lt_of_le_of_lt (Std.le_trans (le_next found) (le_ahead? walk)) inside
      have one := cal.worked_next foundInside
      rw [if_pos works] at one
      have first := cal.worked_add start (le_next found)
      have total := cal.worked_add (Std.le_trans start (le_next found)) (le_ahead? walk)
      have rest := ih walk
      omega
    · contradiction

/-- A walk back that ends after the first date has entered as many. -/
theorem hasDays_of_back? {count : Nat} {reached : Date} (walk : cal.back? count d = some reached)
    (inside : Date.first < reached) : cal.HasDays d (-count) := by
  suffices entered : count ≤ cal.worked reached d by
    have more := cal.worked_mono reached.first_le (Std.le_refl d)
    have ahead := (cal.hasDays_zero d).2
    refine ⟨?_, by omega⟩
    rw [between_swap, between_eq_worked d.first_le]
    omega
  induction count generalizing d with
  | zero => exact Nat.zero_le _
  | succ count ih =>
    simp only [back?] at walk
    split at walk
    · rename_i found search
      have dInside : Date.first < d := by
        have way := Std.le_trans (back?_le walk) (Std.le_trans (workingTo?_le search) (prev_le d))
        exact Std.lt_of_lt_of_le inside way
      have before := Std.lt_of_le_of_lt (workingTo?_le search) (Date.prev_lt dInside)
      have one := cal.worked_pos (Std.le_refl found) before (works_of_workingTo? search)
      have total := cal.worked_add (back?_le walk) (Std.le_of_lt before)
      have rest := ih walk
      omega
    · contradiction

/-- On a steady calendar with days enough, a shift counts what it is asked to. -/
theorem Steady.between_shift (steady : cal.Steady) (enough : cal.HasDays d n) :
    cal.between d (cal.shift d n) = n := by
  obtain ⟨back, ahead⟩ := enough
  obtain ⟨count, rfl | rfl⟩ := Int.eq_nat_or_neg n
  · rw [between_eq_worked d.le_last] at ahead
    rw [between_eq_worked (cal.le_shift d (Int.natCast_nonneg count)),
      steady.worked_shift_ahead (Int.ofNat_le.mp ahead)]
  · rw [between_swap, between_eq_worked d.first_le] at back
    rw [between_swap, between_eq_worked (cal.shift_le d (by omega)),
      steady.worked_shift_back (show count ≤ cal.worked Date.first d by omega)]

/-- What is left for a second shift after a first one. -/
theorem Steady.hasDays_shift (steady : cal.Steady) (first : cal.HasDays d m)
    (both : cal.HasDays d (m + n)) : cal.HasDays (cal.shift d m) n := by
  have counted := steady.between_shift first
  have toFirst := cal.between_add d (cal.shift d m) Date.first
  have toLast := cal.between_add d (cal.shift d m) Date.last
  obtain ⟨back, ahead⟩ := both
  exact ⟨by omega, by omega⟩

/-! ## Where a shift ends -/

theorem ahead?_add (cal : Calendar) (m n : Nat) (d : Date) :
    cal.ahead? (m + n) d = (cal.ahead? m d).bind (cal.ahead? n) := by
  induction m generalizing d with
  | zero => rw [Nat.zero_add]; rfl
  | succ m ih =>
    rw [Nat.add_right_comm, ahead?, ahead?]
    cases cal.workingFrom? (patience + 1) d with
    | none => rfl
    | some worked => exact ih worked.next

/-- A shift forward ends right after a working day. -/
theorem Steady.works_prev_shift (steady : cal.Steady) (positive : 0 < n)
    (enough : cal.HasDays d n) :
    cal.works (cal.shift d n).prev = true ∧ (cal.shift d n).prev < cal.shift d n := by
  obtain ⟨count, rfl⟩ : ∃ count : Nat, n = (count + 1 : Nat) := ⟨(n - 1).toNat, by omega⟩
  have days := enough.2
  rw [between_eq_worked d.le_last, Int.ofNat_le] at days
  -- all but the last working day are passed on the way to `reached`
  obtain ⟨reached, walk, passed⟩ := steady.ahead?_spec (Nat.le_of_succ_le days)
  have rest := cal.worked_add (le_ahead? walk) reached.le_last
  have more : 0 < cal.worked reached Date.last := by omega
  obtain ⟨w, after, -, works⟩ := exists_works more
  obtain ⟨found, search, worksThere, none⟩ := steady.exists_workingFrom? ⟨w, after, works⟩
  have inside : found < Date.last := by
    refine Std.not_le.mp fun reversed => ?_
    have fewer := cal.worked_mono (Std.le_refl reached) reversed
    omega
  have ends : cal.shift d (count + 1 : Nat) = found.next := by
    rw [shift, if_pos (Int.natCast_nonneg _), Int.natAbs_natCast, ahead?_add, walk,
      Option.bind_some, ahead?, search]
    rfl
  rw [ends, Date.prev_next inside]
  exact ⟨worksThere, Date.lt_next inside⟩

theorem works_of_back? {count : Nat} {reached : Date}
    (walk : cal.back? (count + 1) d = some reached) : cal.works reached = true := by
  induction count generalizing d with
  | zero =>
    simp only [back?] at walk
    split at walk
    · rename_i found search
      cases walk
      exact works_of_workingTo? search
    · contradiction
  | succ count ih =>
    rw [back?] at walk
    split at walk
    · exact ih walk
    · contradiction

/-- A shift back ends on a working day. -/
theorem Steady.works_shift (steady : cal.Steady) (negative : n < 0) (enough : cal.HasDays d n) :
    cal.works (cal.shift d n) = true := by
  obtain ⟨count, rfl⟩ : ∃ count : Nat, n = -(count + 1 : Nat) := ⟨(-n - 1).toNat, by omega⟩
  have days := enough.1
  rw [between_swap, between_eq_worked d.first_le] at days
  have entered : count + 1 ≤ cal.worked Date.first d := by omega
  obtain ⟨reached, walk, -⟩ := steady.back?_spec entered
  rw [shift_neg, walk]
  exact works_of_back? walk

/-- A shift forward has ended by the dates up to which there are days enough. -/
theorem Steady.shift_le_iff (steady : cal.Steady) (positive : 0 < n) (enough : cal.HasDays d n) :
    cal.shift d n ≤ e ↔ n ≤ cal.between d e := by
  have counted := steady.between_shift enough
  constructor
  · intro reached
    have more := cal.between_mono d reached
    omega
  · intro days
    refine Std.not_lt.mp fun early => ?_
    obtain ⟨works, before⟩ := steady.works_prev_shift positive enough
    have fewer := between_lt d (Date.le_prev_of_lt early) before works
    omega

/-- A shift back has not gone past the dates from which there are days enough. -/
theorem Steady.le_shift_iff (steady : cal.Steady) (negative : n < 0) (enough : cal.HasDays d n) :
    e ≤ cal.shift d n ↔ cal.between d e ≤ n := by
  have counted := steady.between_shift enough
  constructor
  · intro reached
    have more := cal.between_mono d reached
    omega
  · intro days
    refine Std.not_lt.mp fun late => ?_
    have works := steady.works_shift negative enough
    have more := between_lt d (Std.le_refl _) late works
    omega

/-! ## Shifts of later dates and by greater numbers -/

theorem Steady.shift_mono_date (steady : cal.Steady) (enough : cal.HasDays d n)
    (enoughLater : cal.HasDays e n) (later : d ≤ e) : cal.shift d n ≤ cal.shift e n := by
  have first := steady.between_shift enough
  have second := steady.between_shift enoughLater
  have way := cal.between_nonneg_of_le later
  rcases Int.lt_trichotomy n 0 with negative | rfl | positive
  · rw [steady.le_shift_iff negative enoughLater]
    have total := cal.between_add d e (cal.shift d n)
    omega
  · exact later
  · rw [steady.shift_le_iff positive enough]
    have total := cal.between_add d e (cal.shift e n)
    omega

theorem Steady.shift_mono_days (steady : cal.Steady) (enough : cal.HasDays d m)
    (enoughMore : cal.HasDays d n) (more : m ≤ n) : cal.shift d m ≤ cal.shift d n := by
  by_cases positive : 0 < m
  · rw [steady.shift_le_iff positive enough, steady.between_shift enoughMore]
    exact more
  · by_cases negative : n < 0
    · rw [steady.le_shift_iff negative enoughMore, steady.between_shift enough]
      exact more
    · exact Std.le_trans (cal.shift_le d (by omega)) (cal.le_shift d (by omega))

/-- Counting is additive on any calendar. On a steady one, a shift forward leads to the first date with
the given number of working days up to it, and a shift back to the last one; later dates and greater
numbers lead to later dates. -/
theorem shift_counts (cal : Calendar) :
    (∀ a b c, cal.between a b + cal.between b c = cal.between a c) ∧
    (cal.Steady →
      (∀ d n, 0 < n → cal.HasDays d n →
        IsLeast {e | d ≤ e ∧ cal.between d e = n} (cal.shift d n)) ∧
      (∀ d n, n < 0 → cal.HasDays d n →
        IsGreatest {e | e ≤ d ∧ cal.between d e = n} (cal.shift d n)) ∧
      (∀ d e n, cal.HasDays d n → cal.HasDays e n → d ≤ e → cal.shift d n ≤ cal.shift e n) ∧
      ∀ d m n, cal.HasDays d m → cal.HasDays d n → m ≤ n → cal.shift d m ≤ cal.shift d n) := by
  refine ⟨cal.between_add, fun steady => ⟨?least, ?greatest, ?dates, ?numbers⟩⟩
  case least =>
    intro d n positive enough
    refine ⟨⟨cal.le_shift d (Int.le_of_lt positive), steady.between_shift enough⟩, ?_⟩
    rintro e ⟨-, counted⟩
    exact (steady.shift_le_iff positive enough).mpr (Int.le_of_eq counted.symm)
  case greatest =>
    intro d n negative enough
    refine ⟨⟨cal.shift_le d (Int.le_of_lt negative), steady.between_shift enough⟩, ?_⟩
    rintro e ⟨-, counted⟩
    exact (steady.le_shift_iff negative enough).mpr (Int.le_of_eq counted)
  case dates =>
    intro d e n enough enoughLater later
    exact steady.shift_mono_date enough enoughLater later
  case numbers =>
    intro d m n enough enoughMore more
    exact steady.shift_mono_days enough enoughMore more

/-- Two working days after a Friday, and before the Tuesday after it, across a weekend. -/
theorem shift_counts_over_weekend :
    Sample.week.Steady ∧ Sample.week.HasDays (Sample.day 2) 2 ∧
      Sample.week.HasDays (Sample.day 3) 2 ∧ Sample.week.HasDays (Sample.day 6) (-2) ∧
      IsLeast {e | Sample.day 2 ≤ e ∧ Sample.week.between (Sample.day 2) e = 2} (Sample.day 6) ∧
      IsGreatest {e | e ≤ Sample.day 6 ∧ Sample.week.between (Sample.day 6) e = -2}
        (Sample.day 2) ∧
      Sample.day 6 ≤ Sample.week.shift (Sample.day 3) 2 := by
  have friday : Sample.week.HasDays (Sample.day 2) 2 :=
    hasDays_of_ahead? (show Sample.week.ahead? 2 _ = some (Sample.day 6) by decide) (by decide)
  have saturday : Sample.week.HasDays (Sample.day 3) 2 :=
    hasDays_of_ahead? (show Sample.week.ahead? 2 _ = some (Sample.day 7) by decide) (by decide)
  have tuesday : Sample.week.HasDays (Sample.day 6) (-2) :=
    hasDays_of_back? (show Sample.week.back? 2 _ = some (Sample.day 2) by decide) (by decide)
  have ahead : Sample.week.shift (Sample.day 2) 2 = Sample.day 6 := by decide
  have back : Sample.week.shift (Sample.day 6) (-2) = Sample.day 2 := by decide
  obtain ⟨least, greatest, dates, -⟩ := (shift_counts Sample.week).2 Sample.steady_week
  have first := least (Sample.day 2) 2 (by decide) friday
  have last := greatest (Sample.day 6) (-2) (by decide) tuesday
  have later := dates (Sample.day 2) (Sample.day 3) 2 friday saturday (by decide)
  rw [ahead] at first later
  rw [back] at last
  exact ⟨Sample.steady_week, friday, saturday, tuesday, first, last, later⟩

end Workplan.Calendar
