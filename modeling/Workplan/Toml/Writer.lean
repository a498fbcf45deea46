/-
# Workplan.Toml.Writer — writing TOML

A text is written in the first of four ways that needs no escape: in double quotes on one line, in
single quotes on one line, in three double quotes, in three single quotes. Where each needs one, it is
written in double quotes with escapes, three of them if the text has line ends. A list of two or more
items has each item on a line of its own.
-/
import Workplan.Text.Numeral

namespace Workplan.Toml

set_option autoImplicit false

/-- The length of the longest run of a character in a text, after a run of the given length. -/
def longestRun (c : Char) : Nat → List Char → Nat
  | run, [] => run
  | run, d :: rest => if d = c then longestRun c (run + 1) rest else max run (longestRun c 0 rest)

/-- A character that cannot stand for itself between any quotes. -/
def isControl (c : Char) : Bool :=
  (c.toNat ≤ 0x1F || c.toNat = 0x7F) && c ≠ '\t' && c ≠ '\n'

/-- The four ways to write a text: the quotes are double or single, and one or three of them. -/
inductive Quoting where
  | basic | literal | longBasic | longLiteral
  deriving DecidableEq

/-- How a text is written. -/
def Quoting.ofText (text : List Char) : Quoting :=
  let long := text.contains '\n'
  let control := text.any isControl
  let plain := !control && !text.contains '\\'
  let double := longestRun '"' 0 text
  let single := longestRun '\'' 0 text
  if plain && double = 0 && !long then .basic
  else if !control && single = 0 && !long then .literal
  else if plain && double ≤ 2 then .longBasic
  else if !control && single ≤ 2 then .longLiteral
  else if long then .longBasic
  else .basic

/-- Four upper-case hexadecimal digits. -/
def fourHex (n : Nat) : List Char :=
  let digits := (Nat.toDigits 16 n).map Char.toUpper
  List.replicate (4 - digits.length) '0' ++ digits

/-- A character in double quotes; over several lines a line end stands for itself. -/
def escaped (long : Bool) (c : Char) : List Char :=
  match c with
  | '\x08' => ['\\', 'b']
  | '\t' => ['\\', 't']
  | '\n' => if long then ['\n'] else ['\\', 'n']
  | '\x0c' => ['\\', 'f']
  | '\r' => ['\\', 'r']
  | '\\' => ['\\', '\\']
  | c => if c.toNat ≤ 0x1F || c.toNat = 0x7F then '\\' :: 'u' :: fourHex c.toNat else [c]

/-- A text in double quotes, without them. Over several lines only each third quote in a row is
escaped; the number counts the quotes just before that are not. -/
def basicBody (long : Bool) : Nat → List Char → List Char
  | _, [] => []
  | run, c :: rest =>
    if c ≠ '"' then escaped long c ++ basicBody long 0 rest
    else if long && run < 2 then '"' :: basicBody long (run + 1) rest
    else '\\' :: '"' :: basicBody long 0 rest

/-- A text with its quotes; over several lines it begins on a line of its own. -/
def quotedText (value : String) : String :=
  let text := value.toList
  let lead := if text.contains '\n' then "\n" else ""
  match Quoting.ofText text with
  | .basic => "\"" ++ String.ofList (basicBody false 0 text) ++ "\""
  | .literal => "'" ++ value ++ "'"
  | .longBasic => "\"\"\"" ++ lead ++ String.ofList (basicBody true 0 text) ++ "\"\"\""
  | .longLiteral => "'''" ++ lead ++ value ++ "'''"

/-- A list of texts. -/
def textList : List String → String
  | [] => "[]"
  | [item] => "[" ++ quotedText item ++ "]"
  | items => "[\n" ++ String.join (items.map fun item => "    " ++ quotedText item ++ ",\n") ++ "]"

/-- A table with its header and the written values of its entries. -/
def writtenTable (name : String) (entries : List (String × String)) : String :=
  "[" ++ name ++ "]\n" ++ String.join (entries.map fun entry => entry.1 ++ " = " ++ entry.2 ++ "\n")

end Workplan.Toml
