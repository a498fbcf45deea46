/-
# Workplan.Proofs.WorkingDays — what the walks along a calendar count

The number of working days between two dates is the size of the set of working days between their
day numbers. A walk forward never ends before its start and a walk back never after it, whatever
the calendar:

* `le_shift`, `shift_le`, `le_closestFrom`;
* `between_eq_card` — counting, as the size of a set;
* `le_shift_neg_length` — going back by the length of a span from a date at or after its finish does
  not pass its start, even where the walk gives up;
* `day_shift_everyDay_ahead`, `day_shift_everyDay_back` — where every day is worked, a shift adds,
  and stops at the ends of the calendar.
-/
import Mathlib.Data.Finset.Card
import Mathlib.Data.Int.Range
import Workplan.Task

namespace Workplan.Calendar

set_option autoImplicit false

variable {cal : Calendar}

/-! ## Directions -/

theorem le_next (d : Date) : d ≤ d.next :=
  d.le_addDays (by decide)

theorem prev_le (d : Date) : d.prev ≤ d :=
  d.addDays_le (by decide)

theorem le_workingFrom? {days : Nat} {d worked : Date}
    (found : cal.workingFrom? days d = some worked) : d ≤ worked := by
  induction days generalizing d with
  | zero => contradiction
  | succ days ih =>
    simp only [workingFrom?] at found
    split at found
    · cases found
      exact Std.le_refl _
    · exact Std.le_trans (le_next d) (ih found)

theorem workingTo?_le {days : Nat} {d worked : Date}
    (found : cal.workingTo? days d = some worked) : worked ≤ d := by
  induction days generalizing d with
  | zero => contradiction
  | succ days ih =>
    simp only [workingTo?] at found
    split at found
    · cases found
      exact Std.le_refl _
    · exact Std.le_trans (ih found) (prev_le d)

theorem le_ahead? {count : Nat} {d reached : Date} (found : cal.ahead? count d = some reached) :
    d ≤ reached := by
  induction count generalizing d with
  | zero =>
    cases found
    exact Std.le_refl _
  | succ count ih =>
    simp only [ahead?] at found
    split at found
    · rename_i worked first
      have step := Std.le_trans (le_workingFrom? first) (le_next worked)
      exact Std.le_trans step (ih found)
    · contradiction

theorem back?_le {count : Nat} {d reached : Date} (found : cal.back? count d = some reached) :
    reached ≤ d := by
  induction count generalizing d with
  | zero =>
    cases found
    exact Std.le_refl _
  | succ count ih =>
    simp only [back?] at found
    split at found
    · rename_i worked first
      have step := Std.le_trans (workingTo?_le first) (prev_le d)
      exact Std.le_trans (ih found) step
    · contradiction

theorem le_closestFrom (cal : Calendar) (d : Date) : d ≤ cal.closestFrom d := by
  unfold closestFrom
  cases found : cal.workingFrom? patience d with
  | none => exact Std.le_refl d
  | some worked => exact le_workingFrom? found

theorem le_shift (cal : Calendar) (d : Date) {days : Int} (ahead : 0 ≤ days) :
    d ≤ cal.shift d days := by
  rw [shift, if_pos ahead]
  cases found : cal.ahead? days.natAbs d with
  | none => exact d.le_addDays ahead
  | some reached => exact le_ahead? found

theorem shift_le (cal : Calendar) (d : Date) {days : Int} (back : days ≤ 0) :
    cal.shift d days ≤ d := by
  rcases Int.lt_or_eq_of_le back with negative | rfl
  · rw [shift, if_neg (by omega)]
    cases found : cal.back? days.natAbs d with
    | none => exact d.addDays_le back
    | some reached => exact back?_le found
  · exact Std.le_refl d

/-! ## Counting -/

/-- Whether the day with the given number is a working day. -/
def worksOn (cal : Calendar) (day : Int) : Bool := (Date.ofDay? day).any cal.works

theorem worksOn_day (cal : Calendar) (d : Date) : cal.worksOn d.day = cal.works d := by
  simp [worksOn, Date.ofDay?_day]

/-- The day numbers from one up to, and without, another. -/
def daysFrom (first last : Int) : Finset Int := (Int.range first last).toFinset

theorem mem_daysFrom {first last day : Int} :
    day ∈ daysFrom first last ↔ first ≤ day ∧ day < last := by
  rw [daysFrom, List.mem_toFinset, Int.mem_range_iff]

theorem card_daysFrom (first last : Int) : (daysFrom first last).card = (last - first).toNat := by
  have nodup : (Int.range first last).Nodup :=
    List.nodup_range.map fun a b same => by omega
  rw [daysFrom, List.toFinset_card_of_nodup nodup, Int.range, List.length_map, List.length_range]

/-- The working days from one day number up to, and without, another. -/
def workedDays (cal : Calendar) (first last : Int) : Finset Int :=
  (daysFrom first last).filter fun day => cal.worksOn day = true

theorem workedDays_left {first last : Int} (less : first < last) :
    cal.workedDays first last =
      if cal.worksOn first = true then insert first (cal.workedDays (first + 1) last)
      else cal.workedDays (first + 1) last := by
  have days : daysFrom first last = insert first (daysFrom (first + 1) last) := by
    ext day
    simp only [mem_daysFrom, Finset.mem_insert]
    omega
  rw [workedDays, days, Finset.filter_insert]
  rfl

theorem notMem_workedDays_left {first last : Int} : first ∉ cal.workedDays (first + 1) last := by
  intro member
  have later := (mem_daysFrom.mp (Finset.mem_filter.mp member).1).1
  omega

theorem countFrom_eq_card {days : Nat} {d : Date} (room : d.day + days ≤ Date.last.day) :
    cal.countFrom days d 0 = (cal.workedDays d.day (d.day + days)).card := by
  induction days generalizing d with
  | zero => simp [countFrom, workedDays, daysFrom, Int.range]
  | succ days ih =>
    have next : d.next.day = d.day + 1 := by rw [Date.day_next]; omega
    have shifted : d.day + (days + 1 : Nat) = d.day + 1 + days := by omega
    have rest := ih (d := d.next) (by rw [next]; omega)
    have less : d.day < d.day + (days + 1 : Nat) := by omega
    rw [next, ← shifted] at rest
    rw [countFrom, countFrom_eq_add, rest, workedDays_left less, worksOn_day]
    by_cases works : cal.works d = true
    · rw [if_pos works, if_pos works, Finset.card_insert_of_notMem notMem_workedDays_left]
      omega
    · rw [if_neg works, if_neg works]
      omega

theorem between_eq_card {start finish : Date} (ordered : start ≤ finish) :
    cal.between start finish = (cal.workedDays start.day finish.day).card := by
  have order := Date.le_iff.mp ordered
  have limit : finish.day ≤ Date.last.day := finish.le_lastDay
  have total : start.day + ((finish.day - start.day).toNat : Int) = finish.day := by omega
  rw [between, if_pos ordered, countFrom_eq_card (by rw [total]; exact limit), total]

theorem length_eq_card (cal : Calendar) {span : Span} (ordered : span.start ≤ span.finish) :
    span.length cal = (cal.workedDays span.start.day span.finish.day).card := by
  rw [Span.length, between_eq_card ordered]
  omega

theorem workedDays_mono (cal : Calendar) (first : Int) {last longer : Int} (grown : last ≤ longer) :
    cal.workedDays first last ⊆ cal.workedDays first longer := by
  refine Finset.filter_subset_filter _ fun day member => ?_
  obtain ⟨low, high⟩ := mem_daysFrom.mp member
  exact mem_daysFrom.mpr ⟨low, Int.lt_of_lt_of_le high grown⟩

theorem card_workedDays_le (cal : Calendar) (first last : Int) :
    (cal.workedDays first last).card ≤ (last - first).toNat := by
  have bound := Finset.card_filter_le (daysFrom first last) fun day => cal.worksOn day = true
  rwa [card_daysFrom] at bound

/-! ## Back by the length of a span -/

/-- The day found going back is the last working day up to the start of the search. -/
theorem not_worksOn_of_workingTo? {days : Nat} {d worked : Date}
    (found : cal.workingTo? days d = some worked) {day : Int} (after : worked.day < day)
    (upTo : day ≤ d.day) : cal.worksOn day = false := by
  induction days generalizing d with
  | zero => contradiction
  | succ days ih =>
    simp only [workingTo?] at found
    split at found
    · cases found
      omega
    · rename_i off
      have previous := d.day_prev
      by_cases here : day = d.day
      · rw [here, worksOn_day]
        exact Bool.not_eq_true _ ▸ off
      · exact ih found (by omega)

/-- A walk back that enters no more working days than there are from a date on does not pass that
date. -/
theorem le_back? {count : Nat} {first d reached : Date} (ordered : first ≤ d)
    (enough : count ≤ (cal.workedDays first.day d.day).card)
    (found : cal.back? count d = some reached) : first ≤ reached := by
  induction count generalizing d with
  | zero =>
    cases found
    exact ordered
  | succ count ih =>
    simp only [back?] at found
    split at found
    · rename_i worked latest
      have earlier := Date.le_iff.mp (workingTo?_le latest)
      have previous := d.day_prev
      have start := Date.le_iff.mp ordered
      have bound := cal.card_workedDays_le first.day d.day
      have limit : Date.first.day ≤ first.day := first.firstDay_le
      -- all working days before `d` lie before the one that was found, or are that one
      have split : cal.workedDays first.day d.day ⊆
          insert worked.day (cal.workedDays first.day worked.day) := by
        intro day member
        obtain ⟨inside, works⟩ := Finset.mem_filter.mp member
        obtain ⟨low, high⟩ := mem_daysFrom.mp inside
        rcases Int.lt_trichotomy day worked.day with before | same | after
        · refine Finset.mem_insert_of_mem (Finset.mem_filter.mpr ⟨?_, works⟩)
          exact mem_daysFrom.mpr ⟨low, before⟩
        · rw [same]
          exact Finset.mem_insert_self _ _
        · have off := not_worksOn_of_workingTo? latest after (by omega)
          rw [off] at works
          contradiction
      have count := (Finset.card_le_card split).trans (Finset.card_insert_le _ _)
      have reaches : first ≤ worked := by
        by_contra passed
        have less : worked.day < first.day := Int.not_le.mp passed
        have none : cal.workedDays first.day d.day = ∅ := by
          refine Finset.filter_eq_empty_iff.mpr fun day inside works => ?_
          obtain ⟨low, high⟩ := mem_daysFrom.mp inside
          have off := not_worksOn_of_workingTo? latest (by omega : worked.day < day) (by omega)
          rw [off] at works
          contradiction
        rw [none, Finset.card_empty] at enough
        omega
      exact ih reaches (by omega) found
    · contradiction

/-- Neither does a shift, even where the walk gives up. -/
theorem le_shift_back (cal : Calendar) {first d : Date} (ordered : first ≤ d) {count : Nat}
    (enough : count ≤ (cal.workedDays first.day d.day).card) : first ≤ cal.shift d (-count) := by
  rcases Nat.eq_zero_or_pos count with rfl | positive
  · exact Std.le_trans ordered (le_shift cal d (by decide))
  · have start := Date.le_iff.mp ordered
    have short := cal.card_workedDays_le first.day d.day
    rw [shift, if_neg (by omega)]
    cases found : cal.back? (-(count : Int)).natAbs d with
    | none =>
      rcases d.day_addDays (-count) with exact | same
      · rw [Date.le_iff, Option.getD_none, exact]
        omega
      · rw [Option.getD_none, same]
        exact ordered
    | some reached => exact le_back? ordered (by omega) found

theorem le_shift_neg_length (cal : Calendar) {span : Span} (ordered : span.start ≤ span.finish)
    {d : Date} (late : span.finish ≤ d) : span.start ≤ cal.shift d (-span.length cal) := by
  rw [cal.length_eq_card ordered]
  exact cal.le_shift_back (Std.le_trans ordered late)
    (Finset.card_le_card (cal.workedDays_mono span.start.day late))

/-! ## Where every day is worked -/

theorem workingFrom?_everyDay (days : Nat) (d : Date) :
    everyDay.workingFrom? (days + 1) d = some d := rfl

theorem workingTo?_everyDay (days : Nat) (d : Date) :
    everyDay.workingTo? (days + 1) d = some d := rfl

theorem closestFrom_everyDay (d : Date) : everyDay.closestFrom d = d := by
  have found := workingFrom?_everyDay 3659 d
  rw [closestFrom, patience, found]
  rfl

theorem ahead?_everyDay (count : Nat) (d : Date) :
    ∃ reached, everyDay.ahead? count d = some reached ∧
      reached.day = min (d.day + count) Date.last.day := by
  induction count generalizing d with
  | zero =>
    have limit : d.day ≤ Date.last.day := d.le_lastDay
    exact ⟨d, rfl, by omega⟩
  | succ count ih =>
    obtain ⟨reached, found, day⟩ := ih d.next
    have next := d.day_next
    refine ⟨reached, ?_, by omega⟩
    rw [ahead?, workingFrom?_everyDay]
    exact found

theorem back?_everyDay (count : Nat) (d : Date) :
    ∃ reached, everyDay.back? count d = some reached ∧
      reached.day = max (d.day - count) Date.first.day := by
  induction count generalizing d with
  | zero =>
    have limit : Date.first.day ≤ d.day := d.firstDay_le
    exact ⟨d, rfl, by omega⟩
  | succ count ih =>
    obtain ⟨reached, found, day⟩ := ih d.prev
    have previous := d.day_prev
    refine ⟨reached, ?_, by omega⟩
    rw [back?, workingTo?_everyDay]
    exact found

theorem day_shift_everyDay_ahead (d : Date) {days : Int} (ahead : 0 ≤ days) :
    (everyDay.shift d days).day = min (d.day + days) Date.last.day := by
  obtain ⟨reached, found, day⟩ := ahead?_everyDay days.natAbs d
  rw [shift, if_pos ahead, found, Option.getD_some, day]
  omega

theorem day_shift_everyDay_back (d : Date) {days : Int} (back : days ≤ 0) :
    (everyDay.shift d days).day = max (d.day + days) Date.first.day := by
  rcases Int.lt_or_eq_of_le back with negative | rfl
  · obtain ⟨reached, found, day⟩ := back?_everyDay days.natAbs d
    rw [shift, if_neg (by omega), found, Option.getD_some, day]
    omega
  · have limit : Date.first.day ≤ d.day := d.firstDay_le
    have same : everyDay.shift d 0 = d := rfl
    rw [same]
    omega

theorem day_shift_everyDay (d : Date) (days : Int) :
    (everyDay.shift d days).day = max Date.first.day (min (d.day + days) Date.last.day) := by
  have lower : Date.first.day ≤ d.day := d.firstDay_le
  have upper : d.day ≤ Date.last.day := d.le_lastDay
  rcases Int.le_total 0 days with ahead | back
  · rw [day_shift_everyDay_ahead d ahead]
    omega
  · rw [day_shift_everyDay_back d back]
    omega

theorem workedDays_everyDay (start finish : Date) :
    everyDay.workedDays start.day finish.day = daysFrom start.day finish.day := by
  refine Finset.filter_true_of_mem fun day inside => ?_
  obtain ⟨low, high⟩ := mem_daysFrom.mp inside
  have room : -95745824 ≤ day ∧ day ≤ 95745704 :=
    ⟨Int.le_trans start.firstDay_le low, Int.le_trans (Int.le_of_lt high) finish.le_lastDay⟩
  simp [worksOn, Date.ofDay?, room, everyDay]

theorem length_everyDay {span : Span} (ordered : span.start ≤ span.finish) :
    span.length everyDay = span.finish.day - span.start.day := by
  have order := Date.le_iff.mp ordered
  rw [everyDay.length_eq_card ordered, workedDays_everyDay, card_daysFrom]
  omega

end Workplan.Calendar
