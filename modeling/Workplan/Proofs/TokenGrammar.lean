/-
# Workplan.Proofs.TokenGrammar — which texts are tokens

A token has one of three forms: the number of a task; after it a dash and the mnemonic of a relation; and
after these the mark of a hardness, a `P`, a number of days and a `D`. `Written` tells the forms, and
`Refused` what is wrong with a token of none of them, each of them without the reader. The order in which
the reader looks is in the premises of `Refused`: each reason asks that all before it do not hold.

* `written_or_refused` — every token has a form or a fault;
* `Written.parse`, `Refused.parse` — the reader finds it, whatever blanks are around the token;
* `parse_eq_ok_iff`, `parse_eq_error_iff` — so what it answers is told by the two alone.
-/
import Workplan.Predecessor
import Workplan.Proofs.Numerals

namespace Workplan

set_option autoImplicit false

/-! ## Cutting -/

namespace Text

/-- The number of bytes of the UTF-8 form. -/
def byteSize (text : List Char) : Nat := (String.ofList text).utf8ByteSize

theorem byteSize_cons (c : Char) (text : List Char) :
    byteSize (c :: text) = c.utf8Size + byteSize text := by
  have parts : String.ofList (c :: text) = String.singleton c ++ String.ofList text := by
    rw [String.singleton_eq_ofList, ← String.ofList_append, List.singleton_append]
  rw [byteSize, parts, String.utf8ByteSize_append, String.utf8ByteSize_singleton, byteSize]

theorem byteSize_of_takeBytes? {count : Nat} {text front back : List Char}
    (found : takeBytes? count text = some (front, back)) : byteSize front = count := by
  induction text generalizing count front with
  | nil =>
    cases count with
    | zero => cases found; rfl
    | succ count => contradiction
  | cons c rest ih =>
    cases count with
    | zero => cases found; rfl
    | succ count =>
      simp only [takeBytes?, Option.ite_none_right_eq_some, Option.map_eq_some_iff, Prod.exists,
        Prod.mk.injEq] at found
      obtain ⟨fits, front, back, inner, rfl, rfl⟩ := found
      have size := ih inner
      rw [byteSize_cons]
      omega

theorem takeBytes?_append (front back : List Char) :
    takeBytes? (byteSize front) (front ++ back) = some (front, back) := by
  induction front with
  | nil => cases back <;> rfl
  | cons c front ih =>
    have positive := c.utf8Size_pos
    obtain ⟨count, size⟩ : ∃ count, byteSize (c :: front) = count + 1 :=
      Nat.exists_eq_add_one.mpr (by rw [byteSize_cons]; omega)
    rw [byteSize_cons] at size
    have left : count + 1 - c.utf8Size = byteSize front := by omega
    rw [byteSize_cons, size, List.cons_append, takeBytes?, if_pos (by omega), left, ih]
    rfl

theorem takeBytes?_eq_none {count : Nat} {text : List Char}
    (short : ∀ front back, text = front ++ back → byteSize front ≠ count) :
    takeBytes? count text = none := by
  refine Option.eq_none_iff_forall_ne_some.mpr fun (front, back) found => ?_
  exact short front back (takeBytes?_eq_some found) (byteSize_of_takeBytes? found)

/-- A text and its parts before and after the first mark; without a mark there is nothing after. -/
inductive Cut (mark : Char) : List Char → List Char → Option (List Char) → Prop where
  | whole {text : List Char} (free : mark ∉ text) : Cut mark text text none
  | first {front : List Char} (free : mark ∉ front) (rest : List Char) :
      Cut mark (front ++ mark :: rest) front (some rest)

theorem exists_cut (mark : Char) (text : List Char) : ∃ front after, Cut mark text front after := by
  by_cases marked : mark ∈ text
  · obtain ⟨front, rest, rfl, free⟩ := List.eq_append_cons_of_mem marked
    exact ⟨front, some rest, .first free rest⟩
  · exact ⟨text, none, .whole marked⟩

end Text

theorem Relation.parseMnemonic_eq_error {word : List Char}
    (unknown : ∀ relation : Relation, word ≠ relation.mnemonic.toList) :
    parseMnemonic word = .error (.notMnemonic (String.ofList word)) := by
  have none : ofMnemonic? word = none := by
    refine List.find?_eq_none.mpr fun relation _ same => ?_
    exact unknown relation (of_decide_eq_true same).symm
  rw [parseMnemonic, none]

namespace Predecessor

/-! ## Forms and faults -/

/-- The token tells the predecessor: the number of a task alone, with a relation, or with a relation, a
hardness and a lag. What it does not tell is the usual. -/
inductive Written (token : List Char) : Predecessor → Prop where
  | number {id : List Char} {dependee : TaskId} (cut : Text.Cut '-' token id none)
      (named : dependee.IsNamed id) : Written token { dependee }
  | related {id : List Char} {dependee : TaskId} {relation : Relation}
      (cut : Text.Cut '-' token id (some relation.mnemonic.toList)) (named : dependee.IsNamed id) :
      Written token { dependee, relation }
  | full {id days : List Char} {dependee : TaskId} {relation : Relation} {hardness : Hardness} {lag : Lag}
      (cut : Text.Cut '-' token id
        (some (relation.mnemonic.toList ++ mark hardness :: ('P' :: days ++ ['D']))))
      (named : dependee.IsNamed id) (lagged : Text.Integer days lag.days) :
      Written token { dependee, relation, hardness, lag }

/-- The first thing that is wrong with a token: its number, that no two bytes follow the dash or that
they end inside a character, those two bytes, what follows them, or the lag. -/
inductive Refused (token : List Char) : PredecessorError → Prop where
  | notTask {id : List Char} {after : Option (List Char)} (cut : Text.Cut '-' token id after)
      (unnamed : ∀ task : TaskId, ¬ task.IsNamed id) : Refused token (.notTask (String.ofList id))
  | missingRelation {id rest : List Char} {dependee : TaskId} (cut : Text.Cut '-' token id (some rest))
      (named : dependee.IsNamed id)
      (missing : ∀ word tail, rest = word ++ tail → Text.byteSize word ≠ 2) :
      Refused token (.missingRelation (String.ofList token))
  | badRelation {id word tail : List Char} {dependee : TaskId}
      (cut : Text.Cut '-' token id (some (word ++ tail))) (named : dependee.IsNamed id)
      (size : Text.byteSize word = 2)
      (unknown : ∀ relation : Relation, word ≠ relation.mnemonic.toList) :
      Refused token (.badRelation (String.ofList token) (.notMnemonic (String.ofList word)))
  | badMark {id tail : List Char} {c : Char} {dependee : TaskId} {relation : Relation}
      (cut : Text.Cut '-' token id (some (relation.mnemonic.toList ++ c :: tail)))
      (named : dependee.IsNamed id) (unmarked : ∀ hardness, c ≠ mark hardness) :
      Refused token (.badMark (String.ofList token))
  | badLag {id tail : List Char} {dependee : TaskId} {relation : Relation} {hardness : Hardness}
      (cut : Text.Cut '-' token id (some (relation.mnemonic.toList ++ mark hardness :: tail)))
      (named : dependee.IsNamed id)
      (unread : ∀ days (lag : Lag), tail = 'P' :: days ++ ['D'] → ¬ Text.Integer days lag.days) :
      Refused token (.badLag (String.ofList token))

theorem written_or_refused_of_relation {token id tail : List Char} {dependee : TaskId}
    {relation : Relation} (cut : Text.Cut '-' token id (some (relation.mnemonic.toList ++ tail)))
    (named : dependee.IsNamed id) : (∃ p, Written token p) ∨ ∃ reason, Refused token reason := by
  cases tail with
  | nil => exact .inl ⟨_, .related (List.append_nil relation.mnemonic.toList ▸ cut) named⟩
  | cons c tail =>
    by_cases marked : ∃ hardness, c = mark hardness
    · obtain ⟨hardness, rfl⟩ := marked
      by_cases lagged : ∃ days, ∃ lag : Lag, tail = 'P' :: days ++ ['D'] ∧ Text.Integer days lag.days
      · obtain ⟨days, lag, rfl, number⟩ := lagged
        exact .inl ⟨_, .full cut named number⟩
      · refine .inr ⟨_, .badLag cut named fun days lag whole number => ?_⟩
        exact lagged ⟨days, lag, whole, number⟩
    · exact .inr ⟨_, .badMark cut named fun hardness same => marked ⟨hardness, same⟩⟩

/-- Every token has a form or a fault. -/
theorem written_or_refused (token : List Char) :
    (∃ p, Written token p) ∨ ∃ reason, Refused token reason := by
  obtain ⟨id, after, cut⟩ := Text.exists_cut '-' token
  by_cases named : ∃ task : TaskId, task.IsNamed id
  · obtain ⟨dependee, named⟩ := named
    cases after with
    | none => exact .inl ⟨_, .number cut named⟩
    | some rest =>
      by_cases two : ∃ word tail, rest = word ++ tail ∧ Text.byteSize word = 2
      · obtain ⟨word, tail, rfl, size⟩ := two
        by_cases known : ∃ relation : Relation, word = relation.mnemonic.toList
        · obtain ⟨relation, rfl⟩ := known
          exact written_or_refused_of_relation cut named
        · exact .inr ⟨_, .badRelation cut named size fun relation same => known ⟨relation, same⟩⟩
      · refine .inr ⟨_, .missingRelation cut named fun word tail whole size => ?_⟩
        exact two ⟨word, tail, whole, size⟩
  · exact .inr ⟨_, .notTask cut fun task names => named ⟨task, names⟩⟩

/-! ## What the reader finds -/

theorem ofMark?_mark (hardness : Hardness) : ofMark? (mark hardness) = some hardness := by
  cases hardness <;> rfl

theorem ofMark?_eq_none {c : Char} (unmarked : ∀ hardness, c ≠ mark hardness) : ofMark? c = none := by
  unfold ofMark?
  split
  · exact absurd rfl (unmarked .strong)
  · exact absurd rfl (unmarked .rubber)
  · rfl

theorem readLag?_append {days : List Char} {lag : Lag} (number : Text.Integer days lag.days) :
    readLag? ('P' :: days ++ ['D']) = some lag := by
  simp only [readLag?, List.cons_append, List.getLast?_concat, List.dropLast_concat]
  exact Lag.read?_eq_some_iff.mpr number

theorem readLag?_eq_none {tail : List Char}
    (unread : ∀ days (lag : Lag), tail = 'P' :: days ++ ['D'] → ¬ Text.Integer days lag.days) :
    readLag? tail = none := by
  unfold readLag?
  split
  · rename_i rest
    split
    · rename_i last
      obtain ⟨days, rfl⟩ := List.getLast?_eq_some_iff.mp last
      refine Option.eq_none_iff_forall_ne_some.mpr fun lag read => ?_
      rw [List.dropLast_concat] at read
      exact unread days lag rfl (Lag.read?_eq_some_iff.mp read)
    · rfl
  · rfl

/-- The part before the first dash is read as a task, and what follows the dash after it. -/
theorem parse_of_cut {text id : List Char} {after : Option (List Char)}
    (cut : Text.Cut '-' (Text.trim text) id after) :
    parse text = (TaskId.read? id).elim (.error (.notTask (String.ofList id))) fun dependee =>
      after.elim (.ok { dependee }) (parseRest (String.ofList (Text.trim text)) dependee) := by
  unfold parse
  generalize Text.trim text = token at cut
  cases cut with
  | whole free =>
    have uncut : Text.cutAt? ['-'] id = none :=
      Text.cutAt?_eq_none fun d member same => free (same ▸ member)
    simp only [uncut]
    cases TaskId.read? id <;> rfl
  | first free rest =>
    have others : ∀ d ∈ id, d ≠ '-' := fun d member same => free (same ▸ member)
    have cut : Text.cutAt? ['-'] (id ++ '-' :: rest) = some (id, rest) := Text.cutAt?_append others rest
    simp only [cut]
    cases TaskId.read? id <;> rfl

theorem parse_of_named {text id : List Char} {after : Option (List Char)} {dependee : TaskId}
    (cut : Text.Cut '-' (Text.trim text) id after) (named : dependee.IsNamed id) :
    parse text = after.elim (.ok { dependee }) (parseRest (String.ofList (Text.trim text)) dependee) := by
  rw [parse_of_cut cut, TaskId.read?_eq_some_iff.mpr named, Option.elim_some]

theorem parseRest_mnemonic (token : String) (dependee : TaskId) (relation : Relation)
    (tail : List Char) :
    parseRest token dependee (relation.mnemonic.toList ++ tail) =
      (parseTerms token tail).map fun terms => ⟨dependee, relation, terms.1, terms.2⟩ := by
  have size : Text.byteSize relation.mnemonic.toList = 2 := by cases relation <;> decide
  have taken := Text.takeBytes?_append relation.mnemonic.toList tail
  rw [size] at taken
  simp only [parseRest, taken, Relation.parseMnemonic_mnemonic]
  rfl

theorem Written.parse {text : List Char} {p : Predecessor} (written : Written (Text.trim text) p) :
    parse text = .ok p := by
  cases written with
  | number cut named => rw [parse_of_named cut named, Option.elim_none]
  | @related id dependee relation cut named =>
    have rest := parseRest_mnemonic (String.ofList (Text.trim text)) dependee relation []
    rw [List.append_nil] at rest
    exact (parse_of_named cut named).trans rest
  | full cut named number =>
    have lagged := readLag?_append number
    rw [parse_of_named cut named, Option.elim_some, parseRest_mnemonic]
    simp only [parseTerms, ofMark?_mark, lagged]
    rfl

theorem Refused.parse {text : List Char} {reason : PredecessorError}
    (refused : Refused (Text.trim text) reason) : parse text = .error reason := by
  cases refused with
  | notTask cut unnamed =>
    rw [parse_of_cut cut, TaskId.read?_eq_none unnamed, Option.elim_none]
  | missingRelation cut named missing =>
    rw [parse_of_named cut named, Option.elim_some]
    simp only [parseRest, Text.takeBytes?_eq_none missing]
  | @badRelation _ word tail _ cut named size unknown =>
    have taken := Text.takeBytes?_append word tail
    rw [size] at taken
    rw [parse_of_named cut named, Option.elim_some]
    simp only [parseRest, taken, Relation.parseMnemonic_eq_error unknown]
  | badMark cut named unmarked =>
    rw [parse_of_named cut named, Option.elim_some, parseRest_mnemonic]
    simp only [parseTerms, ofMark?_eq_none unmarked]
    rfl
  | badLag cut named unread =>
    rw [parse_of_named cut named, Option.elim_some, parseRest_mnemonic]
    simp only [parseTerms, ofMark?_mark, readLag?_eq_none unread]
    rfl

theorem parse_eq_ok_iff {text : List Char} {p : Predecessor} :
    parse text = .ok p ↔ Written (Text.trim text) p := by
  refine ⟨fun read => ?_, Written.parse⟩
  rcases written_or_refused (Text.trim text) with ⟨q, written⟩ | ⟨reason, refused⟩
  · obtain rfl := Except.ok.inj (written.parse.symm.trans read)
    exact written
  · cases refused.parse.symm.trans read

theorem parse_eq_error_iff {text : List Char} {reason : PredecessorError} :
    parse text = .error reason ↔ Refused (Text.trim text) reason := by
  refine ⟨fun read => ?_, Refused.parse⟩
  rcases written_or_refused (Text.trim text) with ⟨q, written⟩ | ⟨reason, refused⟩
  · cases written.parse.symm.trans read
  · obtain rfl := Except.error.inj (refused.parse.symm.trans read)
    exact refused

end Predecessor

end Workplan
