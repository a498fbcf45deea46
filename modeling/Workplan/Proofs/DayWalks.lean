/-
# Workplan.Proofs.DayWalks — a shift as a walk from day to day

A shift goes one day at a time. It keeps where it stands, how many working days are left to count and
how many days off it has met in a row; forward, a day counts when it is left, back, when it is entered.
Neither number falls with every day: the days left stay as they are on a day off, and the row of days
off starts anew after a working day; at the ends of the calendar the walk does not even move. But a row
has an end, and every end of a row takes one working day or gives up, so the walk ends (`Ends`):

* `ends_of_passed?`, `ends_of_not_passed?` — one row of days off, up to a working day or too long;
* `Ends.unique` — there is only one way to go;
* `shift_ends` — from any date of any calendar the walk ends where `shift` says, and not on the wrong
  side of the date.
-/
import Workplan.Proofs.WorkingDays

namespace Workplan.Calendar

set_option autoImplicit false

/-- A walk under way. -/
structure Walk where
  current : Date
  /-- The working days that are still to be counted. -/
  left : Nat
  /-- The days off in a row just before. -/
  idle : Nat := 0

/-- The next day of a walk. -/
def onward (ahead : Bool) (d : Date) : Date := if ahead then d.next else d.prev

/-- Whether the step to the next day counts. -/
def counts (cal : Calendar) (ahead : Bool) (d : Date) : Bool :=
  cal.works (if ahead then d else d.prev)

/-- A walk by one day. -/
def Walk.turn (cal : Calendar) (ahead : Bool) (walk : Walk) : Walk :=
  if cal.counts ahead walk.current then ⟨onward ahead walk.current, walk.left - 1, 0⟩
  else ⟨onward ahead walk.current, walk.left, walk.idle + 1⟩

/-- A walk of so many working days from the origin, now under way, ends after the given number of turns
and with the given date. A walk that gives up adds calendar days to the origin. -/
inductive Ends (cal : Calendar) (origin : Date) (days : Int) : Nat → Walk → Date → Prop where
  | arrived {walk : Walk} (done : walk.left = 0) : Ends cal origin days 0 walk walk.current
  | gaveUp {walk : Walk} (more : walk.left ≠ 0) (long : patience < walk.idle) :
      Ends cal origin days 0 walk (origin.addDays days)
  | onward {walk : Walk} {turns : Nat} {reached : Date} (more : walk.left ≠ 0)
      (short : walk.idle ≤ patience)
      (rest : Ends cal origin days turns (walk.turn cal (0 < days)) reached) :
      Ends cal origin days (turns + 1) walk reached

variable {cal : Calendar} {origin : Date} {days : Int} {walk : Walk}

/-- The walk has no choice. -/
theorem Ends.unique {turns others : Nat} {reached other : Date}
    (ends : cal.Ends origin days turns walk reached)
    (again : cal.Ends origin days others walk other) : other = reached := by
  induction ends generalizing others with
  | arrived done =>
    cases again with
    | arrived => rfl
    | gaveUp more => exact absurd done more
    | onward more => exact absurd done more
  | gaveUp more long =>
    cases again with
    | arrived done => exact absurd done more
    | gaveUp => rfl
    | onward _ short => omega
  | onward more short _ ih =>
    cases again with
    | arrived done => exact absurd done more
    | gaveUp _ long => omega
    | onward _ _ rest => exact ih rest

/-! ## One row of days off -/

/-- The day after the first step that counts, among the given number of steps. -/
def passed? (cal : Calendar) (ahead : Bool) : Nat → Date → Option Date
  | 0, _ => none
  | steps + 1, d =>
    if cal.counts ahead d then some (onward ahead d) else cal.passed? ahead steps (onward ahead d)

theorem passed?_ahead (steps : Nat) (d : Date) :
    cal.passed? true steps d = (cal.workingFrom? steps d).map Date.next := by
  induction steps generalizing d with
  | zero => rfl
  | succ steps ih =>
    simp only [passed?, counts, onward, workingFrom?, if_true]
    split
    · rfl
    · exact ih d.next

theorem passed?_back (steps : Nat) (d : Date) :
    cal.passed? false steps d = cal.workingTo? steps d.prev := by
  induction steps generalizing d with
  | zero => rfl
  | succ steps ih =>
    simp only [passed?, counts, onward, workingTo?, Bool.false_eq_true, if_false]
    split
    · rfl
    · exact ih d.prev

/-- A walk that comes upon a working day in time goes on from there, with a day less to count. -/
theorem ends_of_passed? {steps left idle turns : Nat} {d next reached : Date}
    (found : cal.passed? (0 < days) steps d = some next) (room : idle + steps ≤ patience + 1)
    (rest : cal.Ends origin days turns ⟨next, left, 0⟩ reached) :
    ∃ more ≤ steps, cal.Ends origin days (turns + more) ⟨d, left + 1, idle⟩ reached := by
  induction steps generalizing d idle with
  | zero => contradiction
  | succ steps ih =>
    simp only [passed?] at found
    have short : idle ≤ patience := by omega
    split at found
    · rename_i working
      cases found
      have turn : Walk.turn cal (0 < days) ⟨d, left + 1, idle⟩ = ⟨_, left, 0⟩ := if_pos working
      exact ⟨1, by omega, .onward (Nat.succ_ne_zero left) short (turn ▸ rest)⟩
    · rename_i off
      have left_room : idle + 1 + steps ≤ patience + 1 := by omega
      obtain ⟨more, few, later⟩ := ih found left_room
      have turn : Walk.turn cal (0 < days) ⟨d, left + 1, idle⟩ = ⟨_, left + 1, idle + 1⟩ :=
        if_neg off
      exact ⟨more + 1, by omega, .onward (Nat.succ_ne_zero left) short (turn ▸ later)⟩

/-- A walk that comes upon none gives up. -/
theorem ends_of_not_passed? {steps left idle : Nat} {d : Date}
    (found : cal.passed? (0 < days) steps d = none) (room : idle + steps = patience + 1) :
    cal.Ends origin days steps ⟨d, left + 1, idle⟩ (origin.addDays days) := by
  induction steps generalizing d idle with
  | zero => exact .gaveUp (Nat.succ_ne_zero left) (by simp only; omega)
  | succ steps ih =>
    simp only [passed?] at found
    split at found
    · contradiction
    · rename_i off
      have turn : Walk.turn cal (0 < days) ⟨d, left + 1, idle⟩ = ⟨_, left + 1, idle + 1⟩ :=
        if_neg off
      refine .onward (Nat.succ_ne_zero left) (by simp only; omega) ?_
      rw [turn]
      exact ih found (by omega)

/-! ## The whole walk -/

/-- The date after so many steps that count. -/
def walked? (cal : Calendar) (ahead : Bool) : Nat → Date → Option Date
  | 0, d => some d
  | left + 1, d => (cal.passed? ahead (patience + 1) d).bind (cal.walked? ahead left)

theorem walked?_ahead (left : Nat) (d : Date) : cal.walked? true left d = cal.ahead? left d := by
  induction left generalizing d with
  | zero => rfl
  | succ left ih =>
    rw [walked?, passed?_ahead, ahead?]
    cases cal.workingFrom? (patience + 1) d with
    | none => rfl
    | some worked => exact ih worked.next

theorem walked?_back (left : Nat) (d : Date) : cal.walked? false left d = cal.back? left d := by
  induction left generalizing d with
  | zero => rfl
  | succ left ih =>
    rw [walked?, passed?_back, back?]
    cases cal.workingTo? (patience + 1) d.prev with
    | none => rfl
    | some worked => exact ih worked

/-- Each working day takes at most one row of days off. -/
theorem ends_walked? (cal : Calendar) (origin : Date) (days : Int) (left : Nat) (d : Date) :
    ∃ turns ≤ left * (patience + 1), cal.Ends origin days turns ⟨d, left, 0⟩
      ((cal.walked? (0 < days) left d).getD (origin.addDays days)) := by
  induction left generalizing d with
  | zero => exact ⟨0, Nat.le_refl 0, .arrived rfl⟩
  | succ left ih =>
    have product : (left + 1) * (patience + 1) = left * (patience + 1) + (patience + 1) :=
      Nat.succ_mul left (patience + 1)
    rw [walked?]
    cases found : cal.passed? (0 < days) (patience + 1) d with
    | none => exact ⟨patience + 1, by omega, ends_of_not_passed? found (by omega)⟩
    | some next =>
      obtain ⟨turns, bound, rest⟩ := ih next
      have room : 0 + (patience + 1) ≤ patience + 1 := by omega
      obtain ⟨more, few, ends⟩ := ends_of_passed? found room rest
      exact ⟨turns + more, by omega, ends⟩

theorem shift_eq_walked? (cal : Calendar) (d : Date) (days : Int) :
    cal.shift d days = (cal.walked? (0 < days) days.natAbs d).getD (d.addDays days) := by
  rcases Int.lt_trichotomy days 0 with negative | rfl | positive
  · rw [shift, if_neg (by omega), decide_eq_false (by omega), walked?_back]
  · rfl
  · rw [shift, if_pos (by omega), decide_eq_true positive, walked?_ahead]

/-- From every date and for every number of days, on any calendar at all, the walk ends, at the latest
after a full row of days off for each day that it was to count. It ends in one way only, with a date of
the calendar that lies on the side of the first one to which the walk set out. -/
theorem shift_ends (cal : Calendar) (d : Date) (days : Int) :
    (∃ turns ≤ days.natAbs * (patience + 1),
      cal.Ends d days turns ⟨d, days.natAbs, 0⟩ (cal.shift d days)) ∧
    (∀ turns reached, cal.Ends d days turns ⟨d, days.natAbs, 0⟩ reached →
      reached = cal.shift d days) ∧
    Date.first ≤ cal.shift d days ∧ cal.shift d days ≤ Date.last ∧
    (0 ≤ days → d ≤ cal.shift d days) ∧ (days ≤ 0 → cal.shift d days ≤ d) := by
  obtain ⟨turns, bound, ends⟩ := ends_walked? cal d days days.natAbs d
  rw [← shift_eq_walked?] at ends
  exact ⟨⟨turns, bound, ends⟩, fun _ _ again => ends.unique again, Date.first_le _, Date.le_last _,
    cal.le_shift d, cal.shift_le d⟩

/-- No day is worked. -/
def noDay : Calendar := ⟨fun _ => false⟩

/-- Back from the earliest date where no day is worked: the walk stands still until it gives up, and the
calendar days that it then takes off are not there either. -/
theorem shift_ends_without_working_day : noDay.shift Date.first (-5) = Date.first ∧
    (∃ turns ≤ 5 * (patience + 1),
      noDay.Ends Date.first (-5) turns ⟨Date.first, 5, 0⟩ Date.first) ∧
    (-5 : Int) ≤ 0 ∧ noDay.shift Date.first (-5) ≤ Date.first := by
  have stays : noDay.shift Date.first (-5) = Date.first := by decide +kernel
  obtain ⟨ends, -, -, -, -, back⟩ := shift_ends noDay Date.first (-5)
  rw [stays] at ends
  exact ⟨stays, ends, by decide, back (by decide)⟩

end Workplan.Calendar
