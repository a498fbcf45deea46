/-
# Workplan.Text.Split — cutting a text

`cutAt?` cuts at the first place where a mark stands; `pieces` cuts at every mark, from left to
right and without overlap. The empty mark stands before, between and after all characters.
`takeBytes?` cuts after a number of UTF-8 bytes, and only between two characters.

* `cutAt?_eq_some` — the parts and the mark make up the text again.
* `length_lt_of_cutAt?` — what follows a mark is shorter than the text.
* `cutAt?_append`, `pieces_intercalate` — where a mark begins as none of the parts goes on, the text
  falls into the parts that it was made of.
* `takeWhile_append`, `takeWhile_append_cons` — characters of a kind are taken from the front of a text
  as far as they go.
-/
namespace Workplan.Text

set_option autoImplicit false

/-- The text before and after the first place where `mark` stands. -/
def cutAt? (mark : List Char) : List Char → Option (List Char × List Char)
  | [] => if mark = [] then some ([], []) else none
  | c :: rest =>
    if mark <+: c :: rest then some ([], (c :: rest).drop mark.length)
    else (cutAt? mark rest).map fun parts => (c :: parts.1, parts.2)

theorem cutAt?_eq_some {mark text before after : List Char}
    (found : cutAt? mark text = some (before, after)) : text = before ++ mark ++ after := by
  induction text generalizing before with
  | nil =>
    simp only [cutAt?] at found
    split at found <;> simp_all
  | cons c rest ih =>
    simp only [cutAt?] at found
    split at found
    · rename_i here
      cases found
      exact (List.prefix_iff_eq_append.mp here).symm
    · simp only [Option.map_eq_some_iff, Prod.exists, Prod.mk.injEq] at found
      obtain ⟨front, back, inner, rfl, rfl⟩ := found
      have := ih inner
      simp [this]

theorem length_lt_of_cutAt? {mark text before after : List Char} (visible : mark ≠ [])
    (found : cutAt? mark text = some (before, after)) : after.length < text.length := by
  have positive : 0 < mark.length := List.length_pos_iff.mpr visible
  rw [cutAt?_eq_some found]
  simp only [List.length_append]
  omega

/-- The pieces between the marks, in order; a text without a mark is one piece. -/
def piecesBetween (mark : List Char) (visible : mark ≠ []) (text : List Char) : List (List Char) :=
  match _cut : cutAt? mark text with
  | none => [text]
  | some (before, after) => before :: piecesBetween mark visible after
  termination_by text.length
  decreasing_by exact length_lt_of_cutAt? visible _cut

/-- Cuts the text at every mark. -/
def pieces (mark text : List Char) : List (List Char) :=
  if visible : mark ≠ [] then piecesBetween mark visible text
  else [] :: text.map ([·]) ++ [[]]

section Parts

variable {c : Char} {mark : List Char}

theorem not_prefix_cons {d : Char} (other : d ≠ c) (rest : List Char) : ¬ c :: mark <+: d :: rest :=
  fun here => other (List.cons_prefix_cons.mp here).1.symm

theorem cutAt?_append {before : List Char} (free : ∀ d ∈ before, d ≠ c) (after : List Char) :
    cutAt? (c :: mark) (before ++ (c :: mark ++ after)) = some (before, after) := by
  induction before with
  | nil =>
    have here : c :: mark <+: c :: (mark ++ after) := List.prefix_append (c :: mark) after
    have rest : (c :: (mark ++ after)).drop (c :: mark).length = after := List.drop_left
    rw [List.nil_append, List.cons_append, cutAt?, if_pos here, rest]
  | cons d rest ih =>
    obtain ⟨other, later⟩ := List.forall_mem_cons.mp free
    rw [List.cons_append, cutAt?, if_neg (not_prefix_cons other _), ih later]
    rfl

theorem cutAt?_eq_none {text : List Char} (free : ∀ d ∈ text, d ≠ c) :
    cutAt? (c :: mark) text = none := by
  induction text with
  | nil => simp [cutAt?]
  | cons d rest ih =>
    obtain ⟨other, later⟩ := List.forall_mem_cons.mp free
    rw [cutAt?, if_neg (not_prefix_cons other rest), ih later]
    rfl

/-- Parts that are joined by a mark, and do not hold its first character, are the pieces again. -/
theorem pieces_intercalate {parts : List (List Char)} (nonempty : parts ≠ [])
    (free : ∀ part ∈ parts, ∀ d ∈ part, d ≠ c) :
    pieces (c :: mark) ((c :: mark).intercalate parts) = parts := by
  have visible : c :: mark ≠ [] := List.cons_ne_nil _ _
  rw [pieces, dif_pos visible]
  induction parts with
  | nil => exact absurd rfl nonempty
  | cons part rest ih =>
    obtain ⟨freeFirst, freeRest⟩ := List.forall_mem_cons.mp free
    cases rest with
    | nil =>
      rw [List.intercalate_singleton, piecesBetween]
      split
      · rfl
      · rename_i cut
        rw [cutAt?_eq_none freeFirst] at cut
        contradiction
    | cons next rest =>
      have joined : (c :: mark).intercalate (part :: next :: rest) =
          part ++ (c :: mark ++ (c :: mark).intercalate (next :: rest)) := by
        rw [List.intercalate_cons_cons, List.append_assoc]
      have first : cutAt? (c :: mark) (part ++ (c :: mark ++ (c :: mark).intercalate (next :: rest))) =
          some (part, (c :: mark).intercalate (next :: rest)) := cutAt?_append freeFirst _
      rw [joined, piecesBetween]
      split
      · rename_i cut
        rw [first] at cut
        contradiction
      · rename_i cut
        rw [first] at cut
        cases cut
        rw [ih (List.cons_ne_nil _ _) freeRest]

end Parts

/-- The first `count` bytes of the UTF-8 form and the rest, if a character ends there. -/
def takeBytes? : Nat → List Char → Option (List Char × List Char)
  | 0, text => some ([], text)
  | _ + 1, [] => none
  | count + 1, c :: rest =>
    if c.utf8Size ≤ count + 1 then
      (takeBytes? (count + 1 - c.utf8Size) rest).map fun parts => (c :: parts.1, parts.2)
    else none

theorem takeBytes?_eq_some {count : Nat} {text front back : List Char}
    (found : takeBytes? count text = some (front, back)) : text = front ++ back := by
  induction text generalizing count front with
  | nil => cases count <;> simp_all [takeBytes?]
  | cons c rest ih =>
    cases count with
    | zero => simp_all [takeBytes?]
    | succ count =>
      simp only [takeBytes?] at found
      split at found
      · simp only [Option.map_eq_some_iff, Prod.exists, Prod.mk.injEq] at found
        obtain ⟨front, back, inner, rfl, rfl⟩ := found
        simp [ih inner]
      · simp at found

/-- Where the first part has only characters of a kind and the second begins with none of them. -/
theorem takeWhile_append {kind : Char → Bool} {front rest : List Char}
    (inside : ∀ c ∈ front, kind c = true) (stop : ∀ c, rest.head? = some c → kind c = false) :
    (front ++ rest).takeWhile kind = front := by
  have none_left : rest.takeWhile kind = [] := by
    cases rest with
    | nil => rfl
    | cons c rest => simp [stop c rfl]
  rw [List.takeWhile_append_of_pos inside, none_left, List.append_nil]

theorem takeWhile_append_cons {kind : Char → Bool} {front : List Char} {c : Char}
    (inside : ∀ c ∈ front, kind c = true) (stop : kind c = false) (rest : List Char) :
    (front ++ c :: rest).takeWhile kind = front :=
  takeWhile_append inside fun d first => by rwa [← Option.some.inj first]

end Workplan.Text
