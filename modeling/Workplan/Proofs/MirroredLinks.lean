/-
# Workplan.Proofs.MirroredLinks — the links of a network, by hearsay

Who listens to the changes of a network from its start, and puts in, drops and replaces links as it is
told, has the links of the network. Of how strictly a link is held nothing is told when it is set, so a
listener may be wrong about that until it next hears of the link.

* `Mirrors.follow` — changes that lead from table to table lead along from whatever mirrors them;
* `mirror_run` — so without clearing, the links heard of are at every time those of the network.
-/
import Workplan.Proofs.LinkLog

namespace Workplan

set_option autoImplicit false

/-- What a link asks, but for how strictly it is held. -/
def Link.asks (link : Link) : LinkKey × Relation × Lag :=
  (link.key, link.relation, link.lag)

namespace LinkTable

/-- Keeps a table of the links it hears of. -/
def mirror : Listener LinkTable := ⟨hear⟩

variable {table final : LinkTable} {changes : List Change}

theorem Follows.fireAll_eq (follows : Follows table changes final) :
    (Dispatcher.add {} mirror).fireAll table changes = final := by
  induction follows with
  | nil => rfl
  | cons _ _ ih => exact ih

theorem Follows.fits_of_split (follows : Follows table changes final) {before after : List Change}
    {change : Change} (split : changes = before ++ change :: after) :
    change.Fits ((Dispatcher.add {} mirror).fireAll table before) := by
  induction follows generalizing before with
  | nil => simp at split
  | cons fits _ ih =>
    cases before with
    | nil =>
      obtain ⟨rfl, -⟩ := List.cons.inj split
      exact fits
    | cons first before =>
      obtain ⟨rfl, later⟩ := List.cons.inj split
      exact ih later

/-! ## A table that mirrors another -/

/-- The tables have the same links, and know the same of them but for how strictly the blurred ones are
held. -/
structure Mirrors (blurred : LinkKey → Prop) (heard table : LinkTable) : Prop where
  asks : ∀ key, (heard key).map Link.asks = (table key).map Link.asks
  sharp : ∀ key, ¬ blurred key → heard key = table key

variable {blurred : LinkKey → Prop} {heard : LinkTable}

theorem Mirrors.refl (blurred : LinkKey → Prop) (table : LinkTable) : Mirrors blurred table table :=
  ⟨fun _ => rfl, fun _ _ => rfl⟩

theorem Mirrors.mono (mirrors : Mirrors blurred heard table) {other : LinkKey → Prop}
    (fewer : ∀ key, blurred key → other key) : Mirrors other heard table :=
  ⟨mirrors.asks, fun key sharp => mirrors.sharp key fun isBlurred => sharp (fewer key isBlurred)⟩

theorem Mirrors.isSome_eq (mirrors : Mirrors blurred heard table) (key : LinkKey) :
    (heard key).isSome = (table key).isSome := by
  rw [← Option.isSome_map (f := Link.asks), mirrors.asks, Option.isSome_map]

theorem Mirrors.fits (mirrors : Mirrors blurred heard table) {change : Change}
    (fits : change.Fits table) : change.Fits heard := by
  cases change with
  | added link =>
    have missing : (table link.key).isSome = false := by rw [show table link.key = none from fits]; rfl
    rw [← mirrors.isSome_eq] at missing
    exact Option.isNone_iff_eq_none.mp (by simpa using missing)
  | removed link => exact (mirrors.isSome_eq link.key).trans fits
  | changed link => exact (mirrors.isSome_eq link.key).trans fits

/-- Whoever hears of a link knows all of it. -/
theorem Mirrors.hear (mirrors : Mirrors blurred heard table) (change : Change) :
    Mirrors (fun key => blurred key ∧ change.link.key ≠ key) (heard.hear change)
      (table.hear change) := by
  refine ⟨fun key => ?_, fun key sharp => ?_⟩
  · by_cases same : change.link.key = key
    · subst same
      rw [hear_link heard table]
    · rw [hear_of_ne heard same, hear_of_ne table same, mirrors.asks]
  · by_cases same : change.link.key = key
    · subst same
      exact hear_link heard table change
    · rw [hear_of_ne heard same, hear_of_ne table same]
      exact mirrors.sharp key fun isBlurred => sharp ⟨isBlurred, same⟩

/-- Changes that lead from a table to another one can happen to its mirror too, and lead to a mirror. -/
theorem Mirrors.follow (mirrors : Mirrors blurred heard table) (follows : Follows table changes final) :
    ∃ last, Follows heard changes last ∧
      Mirrors (fun key => blurred key ∧ ∀ change ∈ changes, change.link.key ≠ key) last final := by
  induction follows generalizing blurred heard with
  | nil => exact ⟨heard, .nil, mirrors.mono fun _ isBlurred => ⟨isBlurred, by simp⟩⟩
  | @cons _ _ change rest fits _ ih =>
    obtain ⟨last, later, mirrorsLast⟩ := ih (mirrors.hear change)
    refine ⟨last, .cons (mirrors.fits fits) later, mirrorsLast.mono ?_⟩
    rintro key ⟨⟨isBlurred, other⟩, others⟩
    exact ⟨isBlurred, List.forall_mem_cons.mpr ⟨other, others⟩⟩

end LinkTable

open LinkTable (Follows Mirrors)

/-! ## Edits -/

namespace LinkEdit

/-- Edits in order, each against the containment of its time. -/
def runAll (net : Network) : List (Hierarchy × LinkEdit) → Edited Network Unit
  | [] => ⟨(), net, []⟩
  | (h, edit) :: rest => (edit.perform h net).andThen fun _ net => runAll net rest

/-- The edits set how strictly the link is held, and tell nothing of the link after that. -/
def HardenUnheard (key : LinkKey) (net : Network) : List (Hierarchy × LinkEdit) → Prop
  | [] => False
  | (h, edit) :: rest =>
    let next := (edit.perform h net).state
    edit.Hardens key ∧ (∀ change ∈ (runAll next rest).changes, change.link.key ≠ key) ∨
      HardenUnheard key next rest

variable {net : Network} {blurred : LinkKey → Prop} {heard : LinkTable}

theorem mirrors_setHardness (h : Hierarchy) (mirrors : Mirrors blurred heard net.find?) (key : LinkKey)
    (hardness : Hardness) :
    Mirrors (fun other => blurred other ∨ key = other) heard
      ((setHardness key hardness).perform h net).state.find? := by
  have amended : ((setHardness key hardness).perform h net).state.find? = _ :=
    (net.realizes_self.amend key fun link => { link with hardness }).find?
  rw [amended]
  refine ⟨fun other => ?_, fun other sharp => ?_⟩
  · rw [mirrors.asks, LinkTable.amend, Function.update_apply]
    split
    · rename_i same
      rw [same, Option.map_map]
      rfl
    · rfl
  · obtain ⟨sharp, differ⟩ := not_or.mp sharp
    rw [mirrors.sharp other sharp, LinkTable.amend, Function.update_of_ne (Ne.symm differ)]

/-- One edit, whatever it answers: what it tells can happen to a mirror of the links, which then mirrors
the links after it. -/
theorem mirrors_perform (h : Hierarchy) {edit : LinkEdit} (kept : ¬ edit.Clears)
    (mirrors : Mirrors blurred heard net.find?) :
    ∃ last, Follows heard (edit.perform h net).changes last ∧
      Mirrors (fun key => (blurred key ∨ edit.Hardens key) ∧
        ∀ change ∈ (edit.perform h net).changes, change.link.key ≠ key) last
        (edit.perform h net).state.find? := by
  by_cases hardens : ∃ key, edit.Hardens key
  · obtain ⟨key, hardens⟩ := hardens
    cases edit with
    | setHardness other hardness =>
      have silent : ((setHardness other hardness).perform h net).changes = [] :=
        Network.changes_setHardness net other hardness
      rw [silent]
      refine ⟨heard, .nil, (mirrors_setHardness h mirrors other hardness).mono ?_⟩
      exact fun _ isBlurred => ⟨isBlurred, List.forall_mem_nil _⟩
    | _ => exact hardens.elim
  · obtain ⟨last, follows, mirrorsLast⟩ :=
      mirrors.follow (logs h net kept (not_exists.mp hardens)).follows
    exact ⟨last, follows, mirrorsLast.mono fun _ isBlurred => ⟨.inl isBlurred.1, isBlurred.2⟩⟩

/-- Edits in order. -/
theorem mirrors_runAll {edits : List (Hierarchy × LinkEdit)} (kept : ∀ step ∈ edits, ¬ step.2.Clears)
    (mirrors : Mirrors blurred heard net.find?) :
    ∃ last, Follows heard (runAll net edits).changes last ∧
      Mirrors (fun key => blurred key ∧
          (∀ change ∈ (runAll net edits).changes, change.link.key ≠ key) ∨
        HardenUnheard key net edits) last (runAll net edits).state.find? := by
  induction edits generalizing net blurred heard with
  | nil =>
    exact ⟨heard, .nil, mirrors.mono fun _ isBlurred => .inl ⟨isBlurred, List.forall_mem_nil _⟩⟩
  | cons step rest ih =>
    obtain ⟨h, edit⟩ := step
    obtain ⟨keptFirst, keptRest⟩ := List.forall_mem_cons.mp kept
    obtain ⟨middle, first, mirrorsMiddle⟩ := mirrors_perform h keptFirst mirrors
    obtain ⟨last, later, mirrorsLast⟩ := ih keptRest mirrorsMiddle
    refine ⟨last, first.append later, mirrorsLast.mono ?_⟩
    rintro key (⟨⟨isBlurred | hardens, before⟩, after⟩ | unheard)
    · refine .inl ⟨isBlurred, fun change member => ?_⟩
      rcases List.mem_append.mp member with inFirst | inRest
      · exact before change inFirst
      · exact after change inRest
    · exact .inr (.inl ⟨hardens, after⟩)
    · exact .inr (.inr unheard)

/-- Let links be edited in any way but clearing, with whatever success, from none on, and let the
containment be another one each time. Who has listened from the start has the keys of the network, with
what each link asks; it also knows how strictly a link is held, unless that was set and nothing has been
told of the link since. No link is told as added that the listener has, and none as removed or changed that
it does not have. As the edits are any, this is so after each of them. -/
theorem mirror_run (defaults : LinkDefaults) {edits : List (Hierarchy × LinkEdit)}
    (kept : ∀ step ∈ edits, ¬ step.2.Clears) :
    let done := runAll (.empty defaults) edits
    let heardOf := (Dispatcher.add {} LinkTable.mirror).fireAll .empty
    (∀ key, (heardOf done.changes key).map Link.asks = (done.state.find? key).map Link.asks) ∧
    (∀ key, ¬ HardenUnheard key (.empty defaults) edits →
      heardOf done.changes key = done.state.find? key) ∧
    ∀ before change after, done.changes = before ++ change :: after →
      change.Fits (heardOf before) := by
  intro done heardOf
  have start : Mirrors (fun _ => False) .empty (Network.empty defaults).find? := .refl _ _
  obtain ⟨last, follows, mirrors⟩ := mirrors_runAll kept start
  have heard : heardOf done.changes = last := follows.fireAll_eq
  refine ⟨fun key => ?_, fun key known => ?_, fun before change after split => ?_⟩
  · rw [heard]
    exact mirrors.asks key
  · rw [heard]
    exact mirrors.sharp key (by simpa using known)
  · exact follows.fits_of_split split

/-- Two links are held less strictly than they were made to be; of one of them something is told after
that. The batch asks for a link that would close a loop. -/
def sample : List (Hierarchy × LinkEdit) :=
  [(.flat, .create ⟨Sample.outer, Sample.other⟩),
    (.flat, .setHardness ⟨Sample.outer, Sample.other⟩ .rubber),
    (.flat, .batch [.create ⟨Sample.other, Sample.outer⟩, .create ⟨Sample.inner, Sample.other⟩] true),
    (.flat, .setLag ⟨Sample.outer, Sample.other⟩ { days := 3 }),
    (.flat, .setHardness ⟨Sample.inner, Sample.other⟩ .rubber)]

theorem mirror_run_sample :
    let done := runAll (.empty {}) sample
    let heard := (Dispatcher.add {} LinkTable.mirror).fireAll .empty done.changes
    done.state.toList.map Link.key =
      [⟨Sample.outer, Sample.other⟩, ⟨Sample.inner, Sample.other⟩] ∧
    heard ⟨Sample.outer, Sample.other⟩ = done.state.find? ⟨Sample.outer, Sample.other⟩ ∧
    (heard ⟨Sample.inner, Sample.other⟩).map Link.asks =
      (done.state.find? ⟨Sample.inner, Sample.other⟩).map Link.asks ∧
    heard ⟨Sample.inner, Sample.other⟩ ≠ done.state.find? ⟨Sample.inner, Sample.other⟩ := by
  intro done heard
  have kept : ∀ step ∈ sample, ¬ step.2.Clears := by
    simp [sample, Clears]
  obtain ⟨asks, sharp, -⟩ := mirror_run {} kept
  have told : ¬ HardenUnheard ⟨Sample.outer, Sample.other⟩ (.empty {}) sample := by
    simp only [sample, HardenUnheard, Hardens]
    decide
  exact ⟨by decide, sharp _ told, asks _, by decide⟩

end LinkEdit

end Workplan
