/-
# Workplan.Proofs.Walks — a search finds exactly what can be reached

`Reach.finds` keeps the places that are still open and a stack of those that wait, passes over idle
visits and ends with the first place that is sought. `Within` says of a place that steps from open place
to open place lead to it from a waiting one. The search answers as if it made no visit idle and went on
to the end, so long as idle visits are `Spared` by others:

* `finds_iff` — it finds something exactly if a place within the open places is sought;
* `within_iff_reflTransGen` — where no step leaves the list of places, those are the places that any
  number of steps leads to.
-/
import Mathlib.Data.List.TakeWhile
import Mathlib.Logic.Relation
import Workplan.Network.Loop

namespace Workplan.Reach

set_option autoImplicit false

variable {α : Type} [DecidableEq α] {next : α → List α}

omit [DecidableEq α] in
/-- Reached from a waiting place by steps among the given places. -/
inductive Within (next : α → List α) (places waiting : List α) : α → Prop where
  | start {place : α} : place ∈ waiting → place ∈ places → Within next places waiting place
  | step {place following : α} : Within next places waiting place → following ∈ next place →
      following ∈ places → Within next places waiting following

omit [DecidableEq α] in
theorem Within.mono {places more waiting longer : List α} {place : α}
    (within : Within next places waiting place) (grown : ∀ p ∈ places, p ∈ more)
    (starts : ∀ p ∈ waiting, p ∈ places → Within next more longer p) :
    Within next more longer place := by
  induction within with
  | start waits isOpen => exact starts _ waits isOpen
  | step _ leads isOpen ih => exact .step ih leads (grown _ isOpen)

omit [DecidableEq α] in
theorem not_within_of_closed {places waiting : List α} {place : α}
    (closed : ∀ p ∈ waiting, p ∉ places) : ¬ Within next places waiting place := by
  intro within
  induction within with
  | start waits isOpen => exact closed _ waits isOpen
  | step _ _ _ ih => exact ih

/-- The first open place on the stack, with what lies below it. -/
structure IsNext (places stack : List α) (first : α) (rest : List α) : Prop where
  isOpen : first ∈ places
  waits : first ∈ stack
  below : ∀ p ∈ rest, p ∈ stack
  kept : ∀ p ∈ stack, p ∈ places → p = first ∨ p ∈ rest

section Visit

variable {places stack rest : List α} {first : α}

theorem isNext_of_dropWhile
    (shape : (stack.dropWhile fun p => decide (p ∉ places)) = first :: rest) :
    IsNext places stack first rest := by
  have parts := List.takeWhile_append_dropWhile (p := fun p => decide (p ∉ places)) (l := stack)
  rw [shape] at parts
  refine ⟨?_, ?_, ?_, ?_⟩
  · have head := List.head?_dropWhile_not (fun p => decide (p ∉ places)) stack
    simp only [shape, List.head?_cons] at head
    simpa using head
  · rw [← parts]; simp
  · intro p later; rw [← parts]; simp [later]
  · intro p waits stillOpen
    rw [← parts] at waits
    rcases List.mem_append.mp waits with skipped | later
    · have notOpen := List.mem_takeWhile_imp skipped
      simp [stillOpen] at notOpen
    · exact List.mem_cons.mp later

/-- The visit may be made first: the rest of the walk does without that place. -/
theorem IsNext.within_iff (isNext : IsNext places stack first rest) {place : α} :
    Within next places stack place ↔
      place = first ∨ Within next (places.filter (· ≠ first)) (next first ++ rest) place := by
  constructor
  · intro within
    induction within with
    | @start place waits isOpen =>
      rcases isNext.kept place waits isOpen with same | later
      · exact .inl same
      · by_cases same : place = first
        · exact .inl same
        · refine .inr (.start (List.mem_append_right _ later) ?_)
          exact List.mem_filter.mpr ⟨isOpen, by simpa using same⟩
    | @step place following _ leads isOpen ih =>
      by_cases same : following = first
      · exact .inl same
      · have stillOpen : following ∈ places.filter (· ≠ first) :=
          List.mem_filter.mpr ⟨isOpen, by simpa using same⟩
        rcases ih with rfl | within
        · exact .inr (.start (List.mem_append_left _ leads) stillOpen)
        · exact .inr (.step within leads stillOpen)
  · have visited : Within next places stack first := .start isNext.waits isNext.isOpen
    rintro (rfl | within)
    · exact visited
    · refine within.mono (fun p member => (List.mem_filter.mp member).1) ?_
      intro p start member
      have stillOpen := (List.mem_filter.mp member).1
      rcases List.mem_append.mp start with leads | later
      · exact .step visited leads stillOpen
      · exact .start (isNext.below p later) stillOpen

theorem IsNext.mem_rest (isNext : IsNext places stack first rest) {p : α} (waits : p ∈ stack)
    (stillOpen : p ∈ places.filter (· ≠ first)) : p ∈ rest := by
  obtain ⟨isOpen, differ⟩ := List.mem_filter.mp stillOpen
  exact (isNext.kept p waits isOpen).resolve_left (of_decide_eq_true differ)

end Visit

section Search

variable {idle : List α → α → Bool} {sought : α → Bool} {all places stack rest : List α} {first : α}

omit [DecidableEq α] in
/-- A visit is idle only if another one, that is never idle, was made before, leads wherever it leads,
and tells of the place if it is sought. -/
def Spared (next : α → List α) (idle : List α → α → Bool) (sought : α → Bool) (all : List α) : Prop :=
  ∀ place ∈ all, ∀ left, idle left place = true → ∃ other ∈ all, other ∉ left ∧
    (∀ left, idle left other = false) ∧ (∀ p ∈ next place, p ∈ next other) ∧
      (sought place = true → sought other = true)

omit [DecidableEq α] in
/-- Of the places that were visited, and not in idleness, none is sought, and their open successors
wait. -/
def Searched (next : α → List α) (idle : List α → α → Bool) (sought : α → Bool)
    (all places stack : List α) : Prop :=
  ∀ place ∈ all, place ∉ places → (∀ left, idle left place = false) →
    sought place = false ∧ ∀ p ∈ next place, p ∈ places → p ∈ stack

theorem Searched.visit (searched : Searched next idle sought all places stack)
    (isNext : IsNext places stack first rest) {longer : List α} (more : ∀ p ∈ rest, p ∈ longer)
    (visited : (∀ left, idle left first = false) →
      sought first = false ∧ ∀ p ∈ next first, p ∈ longer) :
    Searched next idle sought all (places.filter (· ≠ first)) longer := by
  intro place member closed busy
  by_cases same : place = first
  · obtain ⟨notSought, waiting⟩ := visited (same ▸ busy)
    exact ⟨same ▸ notSought, fun p leads _ => waiting p (same ▸ leads)⟩
  · have closedBefore : place ∉ places := fun isOpen =>
      closed (List.mem_filter.mpr ⟨isOpen, by simpa using same⟩)
    obtain ⟨notSought, waiting⟩ := searched place member closedBefore busy
    refine ⟨notSought, fun p leads stillOpen => more p (isNext.mem_rest ?_ stillOpen)⟩
    exact waiting p leads (List.mem_filter.mp stillOpen).1

/-- What an idle visit would find is found without it, by way of the one that spares it. -/
theorem IsNext.found_iff_of_idle (isNext : IsNext places stack first rest)
    (spared : Spared next idle sought all) (searched : Searched next idle sought all places stack)
    (known : first ∈ all) (isIdle : idle (places.filter (· ≠ first)) first = true) :
    (∃ place, Within next places stack place ∧ sought place = true) ↔
      ∃ place, Within next (places.filter (· ≠ first)) rest place ∧ sought place = true := by
  obtain ⟨other, member, closed, busy, leads, tells⟩ := spared first known _ isIdle
  have differ : other ≠ first := by
    rintro rfl
    rw [busy] at isIdle
    contradiction
  have closedBefore : other ∉ places := fun isOpen =>
    closed (List.mem_filter.mpr ⟨isOpen, by simpa using differ⟩)
  obtain ⟨notSought, waiting⟩ := searched other member closedBefore busy
  refine exists_congr fun place => and_congr_left fun found => ?_
  rw [isNext.within_iff]
  constructor
  · rintro (rfl | within)
    · rw [tells found] at notSought
      contradiction
    · refine within.mono (fun _ => id) fun p start stillOpen => .start ?_ stillOpen
      rcases List.mem_append.mp start with further | later
      · exact isNext.mem_rest (waiting p (leads p further) (List.mem_filter.mp stillOpen).1) stillOpen
      · exact later
  · exact fun within =>
      .inr (within.mono (fun _ => id) fun p later => .start (List.mem_append_right _ later))

/-- A visit to a place that is not sought leaves the search to its successors and to what waits. -/
theorem IsNext.found_iff_of_busy (isNext : IsNext places stack first rest)
    (notSought : sought first = false) :
    (∃ place, Within next places stack place ∧ sought place = true) ↔
      ∃ place, Within next (places.filter (· ≠ first)) ((next first).reverse ++ rest) place ∧
        sought place = true := by
  have both : ∀ p, p ∈ (next first).reverse ++ rest ↔ p ∈ next first ++ rest := by simp
  refine exists_congr fun place => and_congr_left fun found => ?_
  rw [isNext.within_iff]
  constructor
  · rintro (rfl | within)
    · rw [notSought] at found
      contradiction
    · exact within.mono (fun _ => id) fun p start => .start ((both p).mpr start)
  · exact fun within => .inr (within.mono (fun _ => id) fun p start => .start ((both p).mp start))

/-- The search answers as if no visit were idle and it went on to the end. -/
theorem finds_iff (spared : Spared next idle sought all) {visits : Nat}
    (enough : places.length ≤ visits) (known : ∀ p ∈ places, p ∈ all)
    (searched : Searched next idle sought all places stack) :
    finds next idle sought visits places stack = true ↔
      ∃ place, Within next places stack place ∧ sought place = true := by
  induction visits generalizing places stack with
  | zero =>
    have none : places = [] := List.eq_nil_of_length_eq_zero (Nat.le_zero.mp enough)
    subst none
    have nowhere : ∀ place, ¬ Within next [] stack place := fun _ => not_within_of_closed (by simp)
    simp [finds, nowhere]
  | succ visits ih =>
    simp only [finds]
    split
    · rename_i shape
      have closed : ∀ p ∈ stack, p ∉ places := by
        simpa using List.dropWhile_eq_nil_iff.mp shape
      simp [not_within_of_closed closed]
    · rename_i first rest shape
      have isNext := isNext_of_dropWhile shape
      have less := List.length_filter_lt_length_iff_exists (p := (· ≠ first)).mpr
        ⟨first, isNext.isOpen, by simp⟩
      have knownLeft : ∀ p ∈ places.filter (· ≠ first), p ∈ all := fun p member =>
        known p (List.mem_filter.mp member).1
      split
      · rename_i isIdle
        have later : Searched next idle sought all (places.filter (· ≠ first)) rest :=
          searched.visit isNext (fun _ => id) fun never => by
            rw [never] at isIdle
            contradiction
        rw [ih (by omega) knownLeft later]
        exact (isNext.found_iff_of_idle spared searched (known first isNext.isOpen) isIdle).symm
      · cases here : sought first with
        | true => simpa using ⟨first, isNext.within_iff.mpr (.inl rfl), here⟩
        | false =>
          have later : Searched next idle sought all (places.filter (· ≠ first))
              ((next first).reverse ++ rest) :=
            searched.visit isNext (fun _ => List.mem_append_right _) fun _ =>
              ⟨here, fun _ leads => List.mem_append_left _ (List.mem_reverse.mpr leads)⟩
          rw [Bool.false_or, ih (by omega) knownLeft later]
          exact (isNext.found_iff_of_busy here).symm

end Search

omit [DecidableEq α] in
/-- Where no step leaves the places, those within them are whatever can be reached. -/
theorem within_iff_reflTransGen {places start : List α} {place : α}
    (closed : ∀ p ∈ places, ∀ q ∈ next p, q ∈ places) (inside : ∀ p ∈ start, p ∈ places) :
    Within next places start place ↔
      ∃ p ∈ start, Relation.ReflTransGen (fun a b => b ∈ next a) p place := by
  constructor
  · intro within
    induction within with
    | start waits _ => exact ⟨_, waits, .refl⟩
    | step _ leads _ ih =>
      obtain ⟨p, waits, path⟩ := ih
      exact ⟨p, waits, path.tail leads⟩
  · rintro ⟨p, waits, path⟩
    have found : Within next places start place ∧ place ∈ places := by
      induction path with
      | refl => exact ⟨.start waits (inside p waits), inside p waits⟩
      | tail _ leads ih =>
        have isOpen := closed _ ih.2 _ leads
        exact ⟨.step ih.1 leads isOpen, isOpen⟩
    exact found.1

end Workplan.Reach
