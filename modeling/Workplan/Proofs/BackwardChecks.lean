/-
# Workplan.Proofs.BackwardChecks — what passing the backward check says of a link

Looking back, the dependant's boundary is taken from its start and its length, moved back by the lag to a
limit for the dependee's boundary, and on by the dependee's length where the link is tied to its start.
Looking forward, the dependee's boundary is moved by the lag to a barrier for the dependant's boundary.
Both measure the same gap in working days, so what passes the backward check has no working day left up
to the barrier. It may still be held back, by days off alone:

* `between_barrier_eq` — the gap up to the barrier is the gap from the limit;
* `between_limit_nonneg` — what passes backward leaves no gap;
* `forward_of_passing_backward` — when a dependant that passes is still held back;
* `passing_backward_held` — a weekend before the barrier is enough.
-/
import Workplan.Proofs.ShiftCounts

namespace Workplan

set_option autoImplicit false

namespace Span

variable {span : Span}

theorem length_eq_between (cal : Calendar) (ordered : span.start ≤ span.finish) :
    span.length cal = cal.between span.start span.finish := by
  rw [Calendar.length_eq_worked ordered, Calendar.between_eq_worked ordered]

theorem hasDays_length (cal : Calendar) (ordered : span.start ≤ span.finish) :
    cal.HasDays span.start (span.length cal) := by
  rw [length_eq_between cal ordered]
  exact .of_between (cal.between_mono _ ordered) (Std.le_refl _)

end Span

namespace Calendar

variable {cal : Calendar} {d e : Date} {n : Int}

/-- Days enough are so for all dates with the same working days before them. -/
theorem HasDays.of_between_eq_zero (enough : cal.HasDays d n) (none : cal.between d e = 0) :
    cal.HasDays e n := by
  have toFirst := cal.between_add d e Date.first
  have toLast := cal.between_add d e Date.last
  obtain ⟨back, ahead⟩ := enough
  exact ⟨by omega, by omega⟩

/-- No word of 64 bits is too short for the days of a calendar. -/
theorem HasDays.opposite_eq_neg (enough : cal.HasDays d (-n)) : Lag.opposite n = -n := by
  obtain ⟨back, ahead⟩ := enough
  have before := cal.worked_le Date.first d
  have total := cal.worked_le Date.first Date.last
  rw [between_eq_sub] at back ahead
  exact Lag.opposite_eq_neg (by omega) (by omega)

/-- A date by the end of a shift forward, with as many working days up to it, is the end: it comes right
after a working day. -/
theorem Steady.works_prev_of_le_shift (steady : cal.Steady) (positive : 0 < n)
    (enough : cal.HasDays d n) (early : e ≤ cal.shift d n) (counted : cal.between d e = n) :
    cal.works e.prev = true := by
  have late : cal.shift d n ≤ e := by
    rw [steady.shift_le_iff positive enough]
    exact Int.le_of_eq counted.symm
  rw [Std.le_antisymm early late]
  exact (steady.works_prev_shift positive enough).1

end Calendar

namespace Relation

variable {relation : Relation} {dependee dependant : Span} {lag : Int} {cal : Calendar} {d : Date}

/-- Where the dependant's boundary comes to lie if it starts at the candidate date. -/
def boundary (relation : Relation) (dependant : Span) (candidate : Date) (cal : Calendar) : Date :=
  if relation.bindsDependantFinish then cal.shift candidate (dependant.length cal) else candidate

/-- How late the dependee's boundary may come for that. -/
def limit (relation : Relation) (dependant : Span) (lag : Int) (candidate : Date) (cal : Calendar) :
    Date :=
  cal.shift (relation.boundary dependant candidate cal) (Lag.opposite lag)

theorem latestFinish_eq {candidate : Date} :
    relation.latestFinish dependee dependant lag candidate cal =
      if relation.usesDependeeStart then
        cal.shift (relation.limit dependant lag candidate cal) (dependee.length cal)
      else relation.limit dependant lag candidate cal := rfl

theorem limit_eq {candidate : Date}
    (enough : cal.HasDays (relation.boundary dependant candidate cal) (-lag)) :
    relation.limit dependant lag candidate cal =
      cal.shift (relation.boundary dependant candidate cal) (-lag) := by
  rw [limit, enough.opposite_eq_neg]

/-- From its own start, the boundary lies where it is, but for days off before it. -/
theorem boundary_start (relation : Relation) (steady : cal.Steady)
    (ordered : dependant.start ≤ dependant.finish) :
    relation.boundary dependant dependant.start cal ≤ relation.dependantDate dependant ∧
      cal.between (relation.boundary dependant dependant.start cal)
        (relation.dependantDate dependant) = 0 := by
  unfold boundary dependantDate
  split
  · have enough := Span.hasDays_length cal ordered
    have length := Span.length_eq_between cal ordered
    have counted := steady.between_shift enough
    have total := cal.between_add dependant.start
      (cal.shift dependant.start (dependant.length cal)) dependant.finish
    refine ⟨?_, by omega⟩
    rcases Int.lt_or_eq_of_le (dependant.length_nonneg cal) with positive | none
    · rw [steady.shift_le_iff positive enough]
      omega
    · rw [← none, Calendar.shift_zero]
      exact ordered
  · exact ⟨Std.le_refl _, cal.between_self _⟩

/-- If the dependee ends by the latest finish, then its boundary lies by its limit, but for days off. -/
theorem between_limit_nonneg (steady : cal.Steady) (ordered : dependee.start ≤ dependee.finish)
    {candidate : Date}
    (passes : dependee.finish ≤ relation.latestFinish dependee dependant lag candidate cal) :
    0 ≤ cal.between (relation.dependeeDate dependee)
      (relation.limit dependant lag candidate cal) := by
  rw [latestFinish_eq] at passes
  unfold dependeeDate
  split at passes
  · rename_i usesStart
    rw [if_pos usesStart]
    have length := Span.length_eq_between cal ordered
    have way := cal.between_add dependee.start (relation.limit dependant lag candidate cal)
    by_cases enough : cal.HasDays (relation.limit dependant lag candidate cal) (dependee.length cal)
    · have counted := steady.between_shift enough
      have late := cal.between_mono dependee.start passes
      have total := way (cal.shift (relation.limit dependant lag candidate cal) (dependee.length cal))
      omega
    · have nonneg := dependee.length_nonneg cal
      have none := (cal.hasDays_zero (relation.limit dependant lag candidate cal)).1
      have late := cal.between_mono dependee.start dependee.finish.le_last
      have total := way Date.last
      have few : ¬ dependee.length cal ≤
          cal.between (relation.limit dependant lag candidate cal) Date.last :=
        fun days => enough ⟨Int.le_trans none nonneg, days⟩
      omega
  · rename_i usesFinish
    rw [if_neg usesFinish]
    exact cal.between_nonneg_of_le passes

/-- If no working day lies from the dependee's boundary up to its limit, and the latest finish was found by
going forward, then the dependee ends right after a working day. -/
theorem works_prev_finish (steady : cal.Steady) (first : dependee.start ≤ dependee.finish)
    {candidate : Date} (enough : cal.HasDays (relation.boundary dependant candidate cal) (-lag))
    (passes : dependee.finish ≤ relation.latestFinish dependee dependant lag candidate cal)
    (none : cal.between (relation.dependeeDate dependee)
      (relation.limit dependant lag candidate cal) = 0)
    (forward : lag < 0 ∨ relation.usesDependeeStart = true ∧ 0 < dependee.length cal) :
    cal.works dependee.finish.prev = true := by
  have counted := steady.between_shift enough
  have length := Span.length_eq_between cal first
  rw [latestFinish_eq] at passes
  rw [limit_eq enough] at passes none
  unfold dependeeDate at none
  split at passes
  · rename_i usesStart
    rw [if_pos usesStart] at none
    rcases Int.lt_or_eq_of_le (dependee.length_nonneg cal) with positive | empty
    · refine steady.works_prev_of_le_shift positive ?_ passes ?_
      · exact (Span.hasDays_length cal first).of_between_eq_zero none
      · rw [Calendar.between_eq_sub] at none length ⊢
        omega
    · rw [← empty, Calendar.shift_zero] at passes
      have back : lag < 0 := forward.resolve_right fun ⟨_, positive⟩ => by omega
      refine steady.works_prev_of_le_shift (by omega) enough passes ?_
      rw [Calendar.between_eq_sub] at none length counted ⊢
      omega
  · rename_i usesFinish
    rw [if_neg usesFinish] at none
    have back : lag < 0 := forward.resolve_right fun ⟨usesStart, _⟩ => usesFinish usesStart
    refine steady.works_prev_of_le_shift (by omega) enough passes ?_
    rw [Calendar.between_eq_sub] at none counted ⊢
    omega

/-- Without a lag and without going on by the dependee's length, the dependee's boundary comes no later
than the dependant's. -/
theorem dependeeDate_le_of_no_lag (first : dependee.start ≤ dependee.finish) {candidate : Date}
    (passes : dependee.finish ≤ relation.latestFinish dependee dependant 0 candidate cal)
    (still : relation.usesDependeeStart = true → dependee.length cal = 0) :
    relation.dependeeDate dependee ≤ relation.boundary dependant candidate cal := by
  have none : Lag.opposite 0 = 0 := rfl
  rw [latestFinish_eq, limit, none, Calendar.shift_zero] at passes
  unfold dependeeDate
  split at passes
  · rename_i usesStart
    rw [still usesStart, Calendar.shift_zero] at passes
    rw [if_pos usesStart]
    exact Std.le_trans first passes
  · rename_i usesFinish
    rw [if_neg usesFinish]
    exact passes

/-- Both checks measure the same gap: the working days from the dependant's boundary up to the barrier
are those from the limit up to the dependee's boundary. -/
theorem between_barrier_eq (steady : cal.Steady) (second : dependant.start ≤ dependant.finish)
    (enough : cal.HasDays (relation.dependeeDate dependee) lag)
    (enoughBack : cal.HasDays (relation.boundary dependant dependant.start cal) (-lag)) :
    cal.between (relation.dependantDate dependant) (relation.barrier dependee lag cal) =
      cal.between (relation.limit dependant lag dependant.start cal)
        (relation.dependeeDate dependee) := by
  obtain ⟨-, same⟩ := relation.boundary_start steady second
  have there : cal.between (relation.dependeeDate dependee) (relation.barrier dependee lag cal) =
      lag := steady.between_shift enough
  have back : cal.between (relation.boundary dependant dependant.start cal)
      (relation.limit dependant lag dependant.start cal) = -lag := by
    rw [limit_eq enoughBack]
    exact steady.between_shift enoughBack
  rw [Calendar.between_eq_sub] at same back there
  rw [Calendar.between_eq_sub, Calendar.between_eq_sub]
  omega

/-- A dependant that passes backward and is held back all the same has no positive lag, and if it has
none, then the latest finish was found by going on from the dependee's start. -/
theorem lagged_of_held (steady : cal.Steady) (first : dependee.start ≤ dependee.finish)
    (second : dependant.start ≤ dependant.finish)
    (enough : cal.HasDays (relation.dependeeDate dependee) lag)
    (passes : dependee.finish ≤ relation.latestFinish dependee dependant lag dependant.start cal)
    (none : cal.between (relation.dependantDate dependant) (relation.barrier dependee lag cal) ≤ 0)
    (held : relation.dependantDate dependant < relation.barrier dependee lag cal) :
    lag < 0 ∨ lag = 0 ∧ relation.usesDependeeStart = true ∧ 0 < dependee.length cal := by
  rcases Int.lt_trichotomy lag 0 with lead | rfl | positive
  · exact .inl lead
  · refine .inr ⟨rfl, ?_⟩
    by_contra still
    have nonneg := dependee.length_nonneg cal
    have reached := dependeeDate_le_of_no_lag first passes fun usesStart =>
      Int.le_antisymm (Int.not_lt.mp fun positive => still ⟨usesStart, positive⟩) nonneg
    obtain ⟨early, -⟩ := relation.boundary_start steady second
    rw [barrier, Calendar.shift_zero] at held
    exact Std.not_lt.mpr (Std.le_trans reached early) held
  -- the barrier comes right after a working day, which would be left
  · obtain ⟨works, before⟩ := steady.works_prev_shift positive enough
    have passed : cal.between (relation.dependantDate dependant) (relation.dependantDate dependant) <
        cal.between (relation.dependantDate dependant) (relation.barrier dependee lag cal) :=
      Calendar.between_lt _ (Date.le_prev_of_lt held) before works
    rw [Calendar.between_self] at passed
    omega

/-- On a steady calendar with days enough for the lag, a dependant whose own start passes the backward
check has no working day left up to the barrier. It is held back only by days off: its boundary lies on
one, the dependee ends right after a working day, and the lag is negative, or there is none and the link
is tied to the start of a dependee that takes some time. -/
theorem forward_of_passing_backward (steady : cal.Steady) (first : dependee.start ≤ dependee.finish)
    (second : dependant.start ≤ dependant.finish)
    (enough : cal.HasDays (relation.dependeeDate dependee) lag)
    (enoughBack : cal.HasDays (relation.dependantDate dependant) (-lag))
    (passes : (relation.backward dependee dependant lag dependant.start cal).active = false) :
    cal.between (relation.dependantDate dependant) (relation.barrier dependee lag cal) ≤ 0 ∧
      ((relation.forward dependee dependant lag cal).active = true →
        (lag < 0 ∨ lag = 0 ∧ relation.usesDependeeStart = true ∧ 0 < dependee.length cal) ∧
          cal.works (relation.dependantDate dependant) = false ∧
          cal.works dependee.finish.prev = true) := by
  have reached : dependee.finish ≤
      relation.latestFinish dependee dependant lag dependant.start cal :=
    Std.not_lt.mp (of_decide_eq_false passes)
  obtain ⟨-, same⟩ := relation.boundary_start steady second
  have enoughBoundary : cal.HasDays (relation.boundary dependant dependant.start cal) (-lag) := by
    refine enoughBack.of_between_eq_zero ?_
    rw [Calendar.between_swap, same, Int.neg_zero]
  have gap := between_barrier_eq steady second enough enoughBoundary
  have noGap := between_limit_nonneg steady first reached
  rw [Calendar.between_swap] at noGap
  refine ⟨by omega, fun active => ?_⟩
  have held := (forward_active_iff ..).mp active
  have order := cal.between_mono (relation.dependantDate dependant) (Std.le_of_lt held)
  rw [Calendar.between_self] at order
  have lagged := lagged_of_held steady first second enough reached (by omega) held
  refine ⟨lagged, Bool.eq_false_iff.mpr fun works => ?_, ?_⟩
  · have passed := Calendar.between_lt (relation.dependantDate dependant) (Std.le_refl _) held works
    rw [Calendar.between_self] at passed
    omega
  · refine works_prev_finish steady first enoughBoundary reached ?_ (lagged.imp_right And.right)
    rw [Calendar.between_swap]
    omega

end Relation

namespace Sample

/-- On a Monday. -/
def monday : Span := ⟨day 5, day 6⟩

/-- From the Saturday before to the end of that Monday. -/
def overMonday : Span := ⟨day 3, day 6⟩

/-- From a Wednesday to the end of the Friday after it. -/
def throughFriday : Span := ⟨day 0, day 3⟩

/-- On the Tuesday after that. -/
def tuesday : Span := ⟨day 6, day 7⟩

end Sample

namespace Relation

open Sample (monday overMonday throughFriday tuesday week)

/-- With a day between, across a weekend: what passes backward is not held back. -/
theorem forward_of_passing_backward_over_weekend :
    week.Steady ∧ week.HasDays (finishStart.dependeeDate throughFriday) 1 ∧
      week.HasDays (finishStart.dependantDate tuesday) (-1) ∧
      (finishStart.backward throughFriday tuesday 1 tuesday.start week).active = false ∧
      (finishStart.forward throughFriday tuesday 1 week).active = false := by
  have ahead : week.HasDays (finishStart.dependeeDate throughFriday) 1 :=
    .of_between (show week.between _ (Sample.day 3) ≤ 1 by decide)
      (show 1 ≤ week.between _ (Sample.day 6) by decide)
  have back : week.HasDays (finishStart.dependantDate tuesday) (-1) :=
    .of_between (show week.between _ (Sample.day 5) ≤ -1 by decide)
      (show -1 ≤ week.between _ (Sample.day 6) by decide)
  have passes : (finishStart.backward throughFriday tuesday 1 tuesday.start week).active = false := by
    decide
  obtain ⟨-, exception⟩ := forward_of_passing_backward Sample.steady_week
    (show throughFriday.start ≤ throughFriday.finish by decide)
    (show tuesday.start ≤ tuesday.finish by decide) ahead back passes
  refine ⟨Sample.steady_week, ahead, back, passes, Bool.eq_false_iff.mpr fun active => ?_⟩
  rcases (exception active).1 with lead | ⟨none, -⟩ <;> contradiction

/-- A task that starts on a Saturday passes backward and is held back by work on the Monday after it,
with a lead of one day, and from start to start without any. -/
theorem passing_backward_held :
    week.Steady ∧ monday.start ≤ monday.finish ∧ overMonday.start ≤ overMonday.finish ∧
      week.HasDays (finishStart.dependeeDate monday) (-1) ∧
      week.HasDays (finishStart.dependantDate overMonday) 1 ∧
      (finishStart.backward monday overMonday (-1) overMonday.start week).active = false ∧
      (finishStart.forward monday overMonday (-1) week).active = true ∧
      (startStart.backward monday overMonday 0 overMonday.start week).active = false ∧
      (startStart.forward monday overMonday 0 week).active = true := by
  refine ⟨Sample.steady_week, by decide, by decide, ?_, ?_, by decide, by decide, by decide,
    by decide⟩
  · exact .of_between (show week.between _ (Sample.day 5) ≤ -1 by decide)
      (show -1 ≤ week.between _ (Sample.day 6) by decide)
  · exact .of_between (show week.between _ (Sample.day 3) ≤ 1 by decide)
      (show 1 ≤ week.between _ (Sample.day 6) by decide)

end Relation

end Workplan
