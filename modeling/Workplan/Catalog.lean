/-
# Workplan.Catalog — records in the order of their keys

A catalog is a finite set of records with distinct keys, listed by increasing key. Two catalogs
with the same records are equal, so the list is their one written form.

* `mem_insert`, `mem_erase`, `mem_update` — what each edit does to the records.
* `find?_eq_some_iff` — look-up by key is membership.
* `find?_insert`, `find?_erase`, `find?_update` — a catalog is a finite map from keys to records.
* `ext_mem`, `ext_find?` — and it is that map, with nothing besides.
* `mem_range`, `range_eq_append` — reading the records between two keys.
-/
namespace Workplan

set_option autoImplicit false

/-- Records with distinct keys, by increasing key. -/
structure Catalog {κ α : Type} [LT κ] (key : α → κ) where
  entries : List α
  sorted : entries.Pairwise fun a b => key a < key b

namespace Catalog

section Basic

variable {κ α : Type} [LT κ] {key : α → κ}

@[ext] theorem ext {c d : Catalog key} (same : c.entries = d.entries) : c = d := by
  cases c; cases d; simp_all

def empty : Catalog key := ⟨[], .nil⟩

instance : EmptyCollection (Catalog key) := ⟨empty⟩

instance : Inhabited (Catalog key) := ⟨empty⟩

instance : Membership α (Catalog key) := ⟨fun c a => a ∈ c.entries⟩

theorem mem_def {c : Catalog key} {a : α} : a ∈ c ↔ a ∈ c.entries := Iff.rfl

theorem not_mem_empty (a : α) : a ∉ (empty : Catalog key) := by
  simp [mem_def, empty]

def size (c : Catalog key) : Nat := c.entries.length

/-- The records that pass a test. -/
def filter (c : Catalog key) (test : α → Bool) : Catalog key :=
  ⟨c.entries.filter test, c.sorted.filter _⟩

end Basic

section Keys

variable {κ α : Type} [LT κ] [DecidableEq κ] {key : α → κ}

/-- The record with the given key. -/
def find? (c : Catalog key) (k : κ) : Option α :=
  c.entries.find? fun a => key a = k

def contains (c : Catalog key) (k : κ) : Bool :=
  (c.find? k).isSome

/-- Drops the record with the given key. -/
def erase (c : Catalog key) (k : κ) : Catalog key :=
  c.filter fun a => key a ≠ k

/-- Applies a function that keeps keys to the record with the given key. -/
def update (c : Catalog key) (k : κ) (f : α → α) (keeps : ∀ a, key (f a) = key a) :
    Catalog key :=
  ⟨c.entries.map fun a => if key a = k then f a else a, by
    refine List.pairwise_map.mpr (c.sorted.imp ?_)
    intro a b less
    have left : key (if key a = k then f a else a) = key a := by split <;> simp [keeps]
    have right : key (if key b = k then f b else b) = key b := by split <;> simp [keeps]
    rw [left, right]
    exact less⟩

theorem mem_erase {c : Catalog key} {k : κ} {a : α} : a ∈ c.erase k ↔ a ∈ c ∧ key a ≠ k := by
  simp [mem_def, erase, filter]

theorem mem_update {c : Catalog key} {k : κ} {f : α → α} {keeps : ∀ a, key (f a) = key a} {a : α} :
    a ∈ c.update k f keeps ↔ ∃ b ∈ c, a = if key b = k then f b else b := by
  simp only [mem_def, update, List.mem_map]
  constructor
  · rintro ⟨b, member, rfl⟩
    exact ⟨b, member, rfl⟩
  · rintro ⟨b, member, rfl⟩
    exact ⟨b, member, rfl⟩

theorem keys_update (c : Catalog key) (k : κ) (f : α → α) (keeps : ∀ a, key (f a) = key a) :
    (c.update k f keeps).entries.map key = c.entries.map key := by
  simp only [update, List.map_map]
  refine List.map_congr_left fun a _ => ?_
  simp only [Function.comp_apply]
  split <;> simp [keeps]

theorem contains_iff {c : Catalog key} {k : κ} : c.contains k = true ↔ ∃ a ∈ c, key a = k := by
  simp [contains, find?, mem_def, List.find?_isSome]

theorem mem_of_find? {c : Catalog key} {k : κ} {a : α} (found : c.find? k = some a) :
    a ∈ c ∧ key a = k :=
  ⟨List.mem_of_find?_eq_some found, by simpa using List.find?_some found⟩

end Keys

section Order

variable {κ α : Type} [LE κ] [LT κ] [DecidableLT κ] [Std.IsLinearOrder κ] [Std.LawfulOrderLT κ]
  {key : α → κ}

/-- Puts a record before the first with a greater key, in the place of one with its own key. -/
def place (key : α → κ) (x : α) : List α → List α
  | [] => [x]
  | y :: rest =>
    if key x < key y then x :: y :: rest
    else if key y < key x then y :: place key x rest
    else x :: rest

omit [LE κ] [Std.IsLinearOrder κ] [Std.LawfulOrderLT κ] in
theorem mem_of_mem_place {x a : α} {list : List α} (member : a ∈ place key x list) :
    a = x ∨ a ∈ list := by
  induction list with
  | nil => simpa [place] using member
  | cons y rest ih =>
    simp only [place] at member
    split at member
    · simpa using member
    · split at member
      · simp only [List.mem_cons] at member ⊢
        rcases member with same | inside
        · exact .inr (.inl same)
        · rcases ih inside with same | deeper
          · exact .inl same
          · exact .inr (.inr deeper)
      · simp only [List.mem_cons] at member ⊢
        rcases member with same | inside
        · exact .inl same
        · exact .inr (.inr inside)

omit [DecidableLT κ] in
theorem key_eq_of_not_lt {a b : κ} (notLess : ¬ a < b) (notGreater : ¬ b < a) : a = b :=
  Std.le_antisymm (Std.not_lt.mp notGreater) (Std.not_lt.mp notLess)

theorem sorted_place (x : α) {list : List α} (sorted : list.Pairwise fun a b => key a < key b) :
    (place key x list).Pairwise fun a b => key a < key b := by
  induction list with
  | nil => exact List.pairwise_singleton _ _
  | cons y rest ih =>
    obtain ⟨above, tail⟩ := List.pairwise_cons.mp sorted
    simp only [place]
    split
    · rename_i less
      refine List.pairwise_cons.mpr ⟨?_, sorted⟩
      intro a member
      rcases List.mem_cons.mp member with rfl | inside
      · exact less
      · exact Std.lt_trans less (above a inside)
    · rename_i notLess
      split
      · rename_i greater
        refine List.pairwise_cons.mpr ⟨?_, ih tail⟩
        intro a member
        rcases mem_of_mem_place member with rfl | inside
        · exact greater
        · exact above a inside
      · rename_i notGreater
        refine List.pairwise_cons.mpr ⟨?_, tail⟩
        intro a inside
        rw [key_eq_of_not_lt notLess notGreater]
        exact above a inside

/-- The records with keys from one to another, both included, by key. -/
def range [DecidableLE κ] (c : Catalog key) (first last : κ) : List α :=
  c.entries.filter fun a => first ≤ key a ∧ key a ≤ last

omit [DecidableLT κ] [Std.IsLinearOrder κ] [Std.LawfulOrderLT κ] in
theorem mem_range [DecidableLE κ] {c : Catalog key} {first last : κ} {a : α} :
    a ∈ c.range first last ↔ a ∈ c ∧ first ≤ key a ∧ key a ≤ last := by
  simp [range, mem_def]

/-- Adds a record, in the place of one with the same key. -/
def insert (c : Catalog key) (x : α) : Catalog key :=
  ⟨place key x c.entries, sorted_place x c.sorted⟩

omit [DecidableLT κ] [Std.IsLinearOrder κ] in
/-- A key determines its record. -/
theorem eq_of_key_eq {c : Catalog key} {a b : α} (left : a ∈ c) (right : b ∈ c)
    (same : key a = key b) : a = b := by
  obtain ⟨list, sorted⟩ := c
  simp only [mem_def] at left right
  induction list with
  | nil => simp at left
  | cons x rest ih =>
    obtain ⟨above, tail⟩ := List.pairwise_cons.mp sorted
    rcases List.mem_cons.mp left with rfl | insideLeft <;>
      rcases List.mem_cons.mp right with rfl | insideRight
    · rfl
    · exact absurd (same ▸ above b insideRight) (Std.lt_irrefl)
    · exact absurd (same ▸ above a insideLeft) (Std.lt_irrefl)
    · exact ih tail insideLeft insideRight

omit [DecidableLT κ] [Std.IsLinearOrder κ] in
theorem nodup_of_sorted {list : List α} (sorted : list.Pairwise fun a b => key a < key b) :
    list.Nodup := by
  refine List.nodup_iff_pairwise_ne.mpr (sorted.imp ?_)
  rintro a _ less rfl
  exact Std.lt_irrefl less

omit [DecidableLT κ] in
/-- There is one way to list records by increasing key. -/
theorem eq_of_sorted {list other : List α} (sorted : list.Pairwise fun a b => key a < key b)
    (sortedOther : other.Pairwise fun a b => key a < key b) (same : ∀ a, a ∈ list ↔ a ∈ other) :
    list = other := by
  have perm := (List.perm_ext_iff_of_nodup (nodup_of_sorted sorted)
    (nodup_of_sorted sortedOther)).mpr same
  refine List.Perm.eq_of_pairwise (fun a b _ _ less greater => ?_) sorted sortedOther perm
  exact absurd (Std.lt_trans less greater) Std.lt_irrefl

omit [DecidableLT κ] in
/-- Catalogs with the same records are equal. -/
theorem ext_mem {c d : Catalog key} (same : ∀ a, a ∈ c ↔ a ∈ d) : c = d :=
  ext (eq_of_sorted c.sorted d.sorted same)

omit [DecidableLT κ] [Std.IsLinearOrder κ] [Std.LawfulOrderLT κ] in
theorem sorted_range [DecidableLE κ] (c : Catalog key) (first last : κ) :
    (c.range first last).Pairwise fun a b => key a < key b :=
  c.sorted.filter _

omit [DecidableLT κ] in
/-- A range falls into two, one after the other, where no key lies between them. -/
theorem range_eq_append [DecidableLE κ] (c : Catalog key) {first middle next last : κ}
    (apart : middle < next) (split : ∀ k, first ≤ k ∧ k ≤ last ↔
      (first ≤ k ∧ k ≤ middle) ∨ (next ≤ k ∧ k ≤ last)) :
    c.range first last = c.range first middle ++ c.range next last := by
  refine eq_of_sorted (c.sorted_range first last) (List.pairwise_append.mpr
    ⟨c.sorted_range first middle, c.sorted_range next last, ?_⟩) fun a => ?_
  · intro a before b after
    have left := (mem_range.mp before).2.2
    have right := (mem_range.mp after).2.1
    exact Std.lt_of_le_of_lt left (Std.lt_of_lt_of_le apart right)
  · simp only [List.mem_append, mem_range, split, and_or_left]

theorem mem_insert {c : Catalog key} {x a : α} :
    a ∈ c.insert x ↔ a = x ∨ a ∈ c ∧ key a ≠ key x := by
  obtain ⟨list, sorted⟩ := c
  simp only [mem_def, insert]
  induction list with
  | nil => simp [place]
  | cons y rest ih =>
    obtain ⟨above, tail⟩ := List.pairwise_cons.mp sorted
    simp only [place]
    split
    · rename_i less
      have apart : ∀ b ∈ y :: rest, key b ≠ key x := by
        intro b member same
        rcases List.mem_cons.mp member with rfl | inside
        · exact Std.lt_irrefl (same ▸ less)
        · exact Std.lt_irrefl (same ▸ Std.lt_trans less (above b inside))
      constructor
      · intro member
        rcases List.mem_cons.mp member with same | inside
        · exact .inl same
        · exact .inr ⟨inside, apart a inside⟩
      · rintro (same | ⟨inside, -⟩)
        · exact List.mem_cons.mpr (.inl same)
        · exact List.mem_cons.mpr (.inr inside)
    · rename_i notLess
      split
      · rename_i greater
        have head : key y ≠ key x := fun same => Std.lt_irrefl (same ▸ greater)
        simp only [List.mem_cons, ih tail]
        constructor
        · rintro (rfl | rfl | ⟨inside, differ⟩)
          · exact .inr ⟨.inl rfl, head⟩
          · exact .inl rfl
          · exact .inr ⟨.inr inside, differ⟩
        · rintro (rfl | ⟨rfl | inside, differ⟩)
          · exact .inr (.inl rfl)
          · exact .inl rfl
          · exact .inr (.inr ⟨inside, differ⟩)
      · rename_i notGreater
        have same := key_eq_of_not_lt notLess notGreater
        simp only [List.mem_cons]
        constructor
        · rintro (rfl | inside)
          · exact .inl rfl
          · refine .inr ⟨.inr inside, fun equal => ?_⟩
            have less := above a inside
            rw [← same, equal] at less
            exact Std.lt_irrefl less
        · rintro (rfl | ⟨rfl | inside, differ⟩)
          · exact .inl rfl
          · exact absurd same.symm differ
          · exact .inr inside

variable [DecidableEq κ]

omit [DecidableLT κ] [Std.IsLinearOrder κ] in
theorem find?_eq_some_iff {c : Catalog key} {k : κ} {a : α} :
    c.find? k = some a ↔ a ∈ c ∧ key a = k := by
  refine ⟨mem_of_find?, ?_⟩
  rintro ⟨member, rfl⟩
  cases found : c.find? (key a) with
  | none =>
    exact absurd (List.find?_eq_none.mp found a member) (by simp)
  | some b =>
    obtain ⟨inside, same⟩ := mem_of_find? found
    rw [eq_of_key_eq inside member same]

omit [DecidableLT κ] in
theorem ext_find? {c d : Catalog key} (same : ∀ k, c.find? k = d.find? k) : c = d := by
  refine ext_mem fun a => ?_
  have left := find?_eq_some_iff (c := c) (k := key a) (a := a)
  have right := find?_eq_some_iff (c := d) (k := key a) (a := a)
  rw [same, right] at left
  simpa using left.symm

theorem find?_insert (c : Catalog key) (x : α) (k : κ) :
    (c.insert x).find? k = if key x = k then some x else c.find? k := by
  split
  · rename_i same
    exact find?_eq_some_iff.mpr ⟨mem_insert.mpr (.inl rfl), same⟩
  · rename_i differ
    refine Option.ext fun a => ?_
    rw [find?_eq_some_iff, find?_eq_some_iff, mem_insert]
    constructor
    · rintro ⟨rfl | ⟨inside, -⟩, same⟩
      · exact absurd same differ
      · exact ⟨inside, same⟩
    · rintro ⟨inside, rfl⟩
      exact ⟨.inr ⟨inside, fun same => differ same.symm⟩, rfl⟩

omit [DecidableLT κ] [Std.IsLinearOrder κ] in
theorem find?_erase (c : Catalog key) (k l : κ) :
    (c.erase k).find? l = if l = k then none else c.find? l := by
  refine Option.ext fun a => ?_
  rw [find?_eq_some_iff, mem_erase]
  split
  · rename_i same
    subst same
    simp only [reduceCtorEq, iff_false]
    rintro ⟨⟨-, differ⟩, equal⟩
    exact differ equal
  · rename_i differ
    rw [find?_eq_some_iff]
    constructor
    · rintro ⟨⟨inside, -⟩, same⟩
      exact ⟨inside, same⟩
    · rintro ⟨inside, rfl⟩
      exact ⟨⟨inside, differ⟩, rfl⟩

omit [DecidableLT κ] [Std.IsLinearOrder κ] in
theorem find?_update (c : Catalog key) (k : κ) (f : α → α) (keeps : ∀ a, key (f a) = key a)
    (l : κ) : (c.update k f keeps).find? l = if l = k then (c.find? l).map f else c.find? l := by
  refine Option.ext fun a => ?_
  rw [find?_eq_some_iff, mem_update]
  split
  · rename_i same
    subst same
    simp only [Option.map_eq_some_iff, find?_eq_some_iff]
    constructor
    · rintro ⟨⟨b, inside, rfl⟩, equal⟩
      split at equal <;> rename_i test
      · exact ⟨b, ⟨inside, test⟩, by simp [test]⟩
      · exact absurd equal test
    · rintro ⟨b, ⟨inside, rfl⟩, rfl⟩
      exact ⟨⟨b, inside, by simp⟩, keeps b⟩
  · rename_i differ
    rw [find?_eq_some_iff]
    constructor
    · rintro ⟨⟨b, inside, rfl⟩, equal⟩
      split at equal <;> rename_i test
      · exact absurd (((keeps b).symm.trans equal).symm.trans test) differ
      · simp only [test, if_false]
        exact ⟨inside, equal⟩
    · rintro ⟨inside, rfl⟩
      exact ⟨⟨a, inside, by simp [differ]⟩, rfl⟩

end Order

end Catalog

end Workplan
