/-
# Workplan.Toml.Words — the words of TOML and what stands between them

Between words stand blanks, comments and line ends. A text stands in double or in single quotes, and in
one of them or in three. Double quotes know escapes, single ones keep all as it is; between three quotes
a text may run over several lines. A name has one or more parts divided by dots, each a bare word or a
text in quotes.

Each function takes its part from the front of a text and gives back the rest.
-/
import Workplan.Text.Numeral

namespace Workplan.Toml

set_option autoImplicit false

/-! ## Blanks, comments and line ends -/

def isBlank (c : Char) : Bool := c = ' ' || c = '\t'

def skipBlanks (text : List Char) : List Char := text.dropWhile isBlank

/-- No control character but the tab. -/
def isPlain (c : Char) : Bool := c = '\t' || 0x20 ≤ c.toNat && c.toNat ≠ 0x7F

/-- What follows a line end; the end of the text is one. -/
def lineEnd? : List Char → Option (List Char)
  | [] => some []
  | '\n' :: rest => some rest
  | '\r' :: '\n' :: rest => some rest
  | _ => none

/-- What follows the rest of a line that holds nothing but blanks and perhaps a comment. -/
def emptyLine? (text : List Char) : Option (List Char) :=
  match skipBlanks text with
  | '#' :: comment => lineEnd? (comment.dropWhile isPlain)
  | rest => lineEnd? rest

/-- What follows blanks, comments and line ends; the fuel is the length of the text. -/
def skipLinesWithin : Nat → List Char → List Char
  | 0, text => text
  | fuel + 1, text =>
    match skipBlanks text with
    | [] => []
    | c :: rest =>
      if c = '#' || c = '\n' || c = '\r' then
        match emptyLine? (c :: rest) with
        | some after => skipLinesWithin fuel after
        | none => c :: rest
      else c :: rest

def skipLines (text : List Char) : List Char := skipLinesWithin text.length text

/-! ## Texts in quotes -/

/-- The character whose number is written with the given count of hexadecimal digits. -/
def codePoint? (digits : Nat) (text : List Char) : Option (Char × List Char) := do
  if text.length < digits then none
  let values ← (text.take digits).mapM Text.hexDigit?
  let number := values.foldl (fun total digit => 16 * total + digit) 0
  if number.isValidChar then some (Char.ofNat number, text.drop digits) else none

/-- The character that an escape stands for, after its backslash. -/
def escape? : List Char → Option (Char × List Char)
  | 'b' :: rest => some ('\x08', rest)
  | 't' :: rest => some ('\t', rest)
  | 'n' :: rest => some ('\n', rest)
  | 'f' :: rest => some ('\x0c', rest)
  | 'r' :: rest => some ('\r', rest)
  | '"' :: rest => some ('"', rest)
  | '\\' :: rest => some ('\\', rest)
  | 'u' :: rest => codePoint? 4 rest
  | 'U' :: rest => codePoint? 8 rest
  | _ => none

/-- A text up to the double quote that closes it. -/
def basicText? : Nat → List Char → Option (List Char × List Char)
  | 0, _ => none
  | _ + 1, [] => none
  | _ + 1, '"' :: rest => some ([], rest)
  | fuel + 1, '\\' :: rest => do
    let (c, rest) ← escape? rest
    let (tail, rest) ← basicText? fuel rest
    return (c :: tail, rest)
  | fuel + 1, c :: rest => do
    if !isPlain c then none
    let (tail, rest) ← basicText? fuel rest
    return (c :: tail, rest)

/-- A text up to the single quote that closes it. -/
def literalText? (text : List Char) : Option (List Char × List Char) :=
  let inside := text.takeWhile fun c => isPlain c && c ≠ '\''
  match text.drop inside.length with
  | '\'' :: rest => some (inside, rest)
  | _ => none

/-- Three quotes close a long text; up to two more before them belong to it. -/
def closeLong? (quote : Char) (text : List Char) : Option (List Char × List Char) :=
  let quotes := (text.takeWhile (· = quote)).length
  if quotes < 3 then none
  else
    let taken := min quotes 5
    some (List.replicate (taken - 3) quote, text.drop taken)

/-- What follows blanks and line ends. -/
def skipEmptyLines : List Char → List Char
  | '\r' :: '\n' :: rest => skipEmptyLines rest
  | c :: rest => if isBlank c || c = '\n' then skipEmptyLines rest else c :: rest
  | [] => []

/-- What follows a backslash at the end of a line: the next character that is no blank. -/
def joinLines? (text : List Char) : Option (List Char) :=
  match skipBlanks text with
  | [] => none
  | c :: rest => (lineEnd? (c :: rest)).map skipEmptyLines

/-- A text over several lines, up to its closing double quotes. -/
def longBasicText? : Nat → List Char → Option (List Char × List Char)
  | 0, _ => none
  | _ + 1, [] => none
  | fuel + 1, '"' :: rest =>
    match closeLong? '"' ('"' :: rest) with
    | some closed => some closed
    | none => do
      let (tail, rest) ← longBasicText? fuel rest
      return ('"' :: tail, rest)
  | fuel + 1, '\\' :: rest =>
    match joinLines? rest with
    | some rest => longBasicText? fuel rest
    | none => do
      let (c, rest) ← escape? rest
      let (tail, rest) ← longBasicText? fuel rest
      return (c :: tail, rest)
  | fuel + 1, c :: rest =>
    if isPlain c then do
      let (tail, rest) ← longBasicText? fuel rest
      return (c :: tail, rest)
    else do
      let rest ← lineEnd? (c :: rest)
      let (tail, rest) ← longBasicText? fuel rest
      return ('\n' :: tail, rest)

/-- A text over several lines as it stands, up to its closing single quotes. -/
def longLiteralText? : Nat → List Char → Option (List Char × List Char)
  | 0, _ => none
  | _ + 1, [] => none
  | fuel + 1, '\'' :: rest =>
    match closeLong? '\'' ('\'' :: rest) with
    | some closed => some closed
    | none => do
      let (tail, rest) ← longLiteralText? fuel rest
      return ('\'' :: tail, rest)
  | fuel + 1, c :: rest =>
    if isPlain c then do
      let (tail, rest) ← longLiteralText? fuel rest
      return (c :: tail, rest)
    else do
      let rest ← lineEnd? (c :: rest)
      let (tail, rest) ← longLiteralText? fuel rest
      return ('\n' :: tail, rest)

/-- A long text begins after the line end that may follow its quotes. -/
def dropFirstLineEnd (text : List Char) : List Char :=
  if text = [] then [] else (lineEnd? text).getD text

/-- A text in quotes of any of the four kinds. -/
def quoted? : List Char → Option (List Char × List Char)
  | '"' :: '"' :: '"' :: rest => longBasicText? (rest.length + 1) (dropFirstLineEnd rest)
  | '\'' :: '\'' :: '\'' :: rest => longLiteralText? (rest.length + 1) (dropFirstLineEnd rest)
  | '"' :: rest => basicText? (rest.length + 1) rest
  | '\'' :: rest => literalText? rest
  | _ => none

/-! ## Names -/

def isNameChar (c : Char) : Bool := c.isAlphanum || c = '_' || c = '-'

/-- One part of a name: a bare word, or a text between two double or two single quotes. -/
def namePart? : List Char → Option (List Char × List Char)
  | '"' :: rest => basicText? (rest.length + 1) rest
  | '\'' :: rest => literalText? rest
  | text =>
    let bare := text.takeWhile isNameChar
    if bare = [] then none else some (bare, text.drop bare.length)

/-- A name with its parts divided by dots; blanks may surround each. -/
def nameWithin? : Nat → List Char → Option (List String × List Char)
  | 0, _ => none
  | fuel + 1, text => do
    let (part, rest) ← namePart? (skipBlanks text)
    match skipBlanks rest with
    | '.' :: rest =>
      let (parts, rest) ← nameWithin? fuel rest
      return (String.ofList part :: parts, rest)
    | rest => return ([String.ofList part], rest)

/-- How many parts a name may have, and how many lists and tables on one line may lie within one
another. -/
def maxDepth : Nat := 79

/-- A name at the front of a text. -/
def name? (text : List Char) : Option (List String × List Char) := do
  let (parts, rest) ← nameWithin? (text.length + 1) text
  if maxDepth < parts.length then none else some (parts, rest)

end Workplan.Toml
