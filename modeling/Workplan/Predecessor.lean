/-
# Workplan.Predecessor — predecessors in a compact notation

The links on which a task waits can be written as one text, a token for each: the dependee alone,
as in `7`, for a finish-start link that is strong and has no lag; with its relation, as in `7-FF`;
and with a mark of its hardness and the lag in days, `=` for strong as in `7-SS=P2D` and `>` for
rubber as in `7-FS>P1D`. Tokens are joined by a separator of the caller's choice.
-/
import Workplan.Network.Edit
import Workplan.Text.Split

namespace Workplan

set_option autoImplicit false

/-- Why a token cannot be read, or the link it describes cannot be made. -/
inductive PredecessorError where
  | notTask (text : String)
  | missingRelation (token : String)
  | badRelation (token : String) (reason : TermError)
  | badMark (token : String)
  | badLag (token : String)
  | unknownTask (task : TaskId)
  | refused (dependant dependee : TaskId) (reason : LinkError)
  deriving DecidableEq

def PredecessorError.message : PredecessorError → String
  | notTask text => s!"'{text}' is not a task ID"
  | missingRelation token =>
    s!"Invalid dependency spec '{token}': expected a two-letter dependency type after the dash"
  | badRelation token reason => s!"Invalid dependency spec '{token}': " ++ reason.message
  | badMark token =>
    s!"Invalid dependency spec '{token}': expected '>' or '=' after the dependency type"
  | badLag token => s!"Invalid dependency spec '{token}': lag must look like P<days>D, e.g. P1D"
  | unknownTask task => s!"Can't find task with ID {task}"
  | refused dependant dependee reason =>
    s!"Can't create dependency of task {dependant} on {dependee}: " ++ reason.message

/-- What a token says of a link: all but the dependant. -/
structure Predecessor where
  dependee : TaskId
  relation : Relation := .finishStart
  hardness : Hardness := .strong
  lag : Lag := .zero
  deriving DecidableEq

namespace Predecessor

/-- The link that the token describes for a dependant. -/
def link (p : Predecessor) (dependant : TaskId) : Link :=
  { key := ⟨dependant, p.dependee⟩, relation := p.relation, hardness := p.hardness, lag := p.lag }

/-- What a token says of the given link. -/
def ofLink (link : Link) : Predecessor :=
  { dependee := link.dependee, relation := link.relation, hardness := link.hardness,
    lag := link.lag }

theorem link_ofLink (link : Link) : (ofLink link).link link.dependant = link := rfl

/-! ## Writing -/

/-- The mark of a hardness. -/
def mark : Hardness → Char
  | .strong => '='
  | .rubber => '>'

/-- The token, without the parts that say nothing but the usual. -/
def chars (p : Predecessor) : List Char :=
  let plain := p.lag = .zero ∧ p.hardness = .strong
  if plain ∧ p.relation = .finishStart then p.dependee.chars
  else if plain then p.dependee.chars ++ '-' :: p.relation.mnemonic.toList
  else
    p.dependee.chars ++ '-' :: p.relation.mnemonic.toList ++
      mark p.hardness :: 'P' :: Text.decimal p.lag.days ++ ['D']

instance : ToString Predecessor := ⟨fun p => String.ofList p.chars⟩

/-- The predecessors of a task, by dependee. -/
def format (net : Network) (task : TaskId) (separator : List Char) : List Char :=
  separator.intercalate ((net.asDependant task).map fun link => (ofLink link).chars)

/-! ## Reading -/

/-- The hardness that a mark stands for. -/
def ofMark? : Char → Option Hardness
  | '=' => some .strong
  | '>' => some .rubber
  | _ => none

/-- A lag between `P` and `D`. -/
def readLag? : List Char → Option Lag
  | 'P' :: rest =>
    match rest.getLast? with
    | some 'D' => Lag.read? rest.dropLast
    | _ => none
  | _ => none

/-- What follows the relation: nothing, or the mark of a hardness and a lag. -/
def parseTerms (token : String) : List Char → Except PredecessorError (Hardness × Lag)
  | [] => .ok (.strong, .zero)
  | c :: rest =>
    match ofMark? c with
    | none => .error (.badMark token)
    | some hardness =>
      match readLag? rest with
      | none => .error (.badLag token)
      | some lag => .ok (hardness, lag)

/-- What follows the dash: a relation, two bytes long, and its terms. -/
def parseRest (token : String) (dependee : TaskId) (rest : List Char) :
    Except PredecessorError Predecessor :=
  match Text.takeBytes? 2 rest with
  | none => .error (.missingRelation token)
  | some (word, tail) =>
    match Relation.parseMnemonic word with
    | .error reason => .error (.badRelation token reason)
    | .ok relation => do
      let (hardness, lag) ← parseTerms token tail
      return { dependee, relation, hardness, lag }

/-- Reads one token; blanks around it do not count. -/
def parse (text : List Char) : Except PredecessorError Predecessor :=
  let token := Text.trim text
  let (front, rest) :=
    match Text.cutAt? ['-'] token with
    | some (front, back) => (front, some back)
    | none => (token, none)
  match TaskId.read? front, rest with
  | none, _ => .error (.notTask (String.ofList front))
  | some dependee, none => .ok { dependee }
  | some dependee, some rest => parseRest (String.ofList token) dependee rest

/-- Reads the tokens between separators in order, up to the first that is none; blank pieces do not
count. -/
def parseAll (text separator : List Char) : Except PredecessorError (List Predecessor) :=
  ((Text.pieces separator text).filter fun piece => !Text.isBlankText piece).mapM parse

/-! ## Making the links -/

/-- Makes the links that tokens describe, up to the first that fails; those made before it stay. -/
def apply (h : Hierarchy) (net : Network) (dependant : TaskId) :
    List Predecessor → Edited Network (Except PredecessorError (List Link))
  | [] => ⟨.ok [], net, []⟩
  | p :: rest =>
    if !h.knows p.dependee then ⟨.error (.unknownTask p.dependee), net, []⟩
    else
      (net.add h (p.link dependant)).andThen fun answer net =>
        match answer with
        | .error reason => ⟨.error (.refused dependant p.dependee reason), net, []⟩
        | .ok link => (apply h net dependant rest).map fun made => made.map (link :: ·)

end Predecessor

end Workplan
