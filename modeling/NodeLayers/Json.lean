import NodeLayers.Decimal
import NodeLayers.Table

namespace NodeLayers

/-- A JSON value. Members keep their order, and a name may be given twice. -/
inductive Json
  | null
  | bool (value : Bool)
  | integer (value : Int)
  | real (value : Float)
  | text (value : String)
  | list (items : List Json)
  | object (members : List (String × Json))

def hexDigits : Nat → Nat → List Char
  | 0, _ => []
  | width + 1, n => hexDigits width (n / 16) ++ [Nat.digitChar (n % 16)]

namespace Json

/-- Reals are written in positions from `0.00001` up to sixteen places before the point. -/
def realForm : Positional :=
  ⟨-5, 15⟩

/-- A character between quotes. Only quotes, backslashes and control characters are escaped. -/
def escapeChar (c : Char) : List Char :=
  if c = '"' then ['\\', '"']
  else if c = '\\' then ['\\', '\\']
  else if c = '\x08' then ['\\', 'b']
  else if c = '\t' then ['\\', 't']
  else if c = '\n' then ['\\', 'n']
  else if c = '\x0c' then ['\\', 'f']
  else if c = '\r' then ['\\', 'r']
  else if c.toNat < 0x20 then '\\' :: 'u' :: hexDigits 4 c.toNat
  else [c]

def quotedChars (s : String) : List Char :=
  '"' :: s.toList.flatMap escapeChar ++ ['"']

def scalarChars : Json → List Char
  | .bool true => "true".toList
  | .bool false => "false".toList
  | .integer n => (toString n).toList
  | .real x => (realForm.text x).toList
  | .text s => quotedChars s
  | .null | .list _ | .object _ => "null".toList

mutual

/-- A value on one line without blanks. -/
def chars : Json → List Char
  | .list items => '[' :: itemChars items ++ [']']
  | .object members => '\x7b' :: memberChars members ++ ['\x7d']
  | j => scalarChars j

def itemChars : List Json → List Char
  | [] => []
  | [j] => chars j
  | j :: rest => chars j ++ ',' :: itemChars rest

def memberChars : List (String × Json) → List Char
  | [] => []
  | [(k, j)] => quotedChars k ++ ':' :: chars j
  | (k, j) :: rest => quotedChars k ++ ':' :: chars j ++ ',' :: memberChars rest

end

def compact (j : Json) : String :=
  String.ofList (chars j)

def lineBreak (depth : Nat) : List Char :=
  '\n' :: List.replicate (2 * depth) ' '

mutual

/-- A value with each item and member on a line of its own; `depth` is the number of containers
around it. -/
def prettyChars (depth : Nat) : Json → List Char
  | .list [] => ['[', ']']
  | .list items => '[' :: prettyItems (depth + 1) items ++ lineBreak depth ++ [']']
  | .object [] => ['\x7b', '\x7d']
  | .object members => '\x7b' :: prettyMembers (depth + 1) members ++ lineBreak depth ++ ['\x7d']
  | j => scalarChars j

def prettyItems (depth : Nat) : List Json → List Char
  | [] => []
  | [j] => lineBreak depth ++ prettyChars depth j
  | j :: rest => lineBreak depth ++ prettyChars depth j ++ ',' :: prettyItems depth rest

def prettyMembers (depth : Nat) : List (String × Json) → List Char
  | [] => []
  | [(k, j)] => lineBreak depth ++ quotedChars k ++ ':' :: ' ' :: prettyChars depth j
  | (k, j) :: rest =>
    lineBreak depth ++ quotedChars k ++ ':' :: ' ' :: prettyChars depth j ++
      ',' :: prettyMembers depth rest

end

def pretty (j : Json) : String :=
  String.ofList (prettyChars 0 j)

mutual

def sorted : Json → Json
  | .list items => .list (sortedItems items)
  | .object members => .object (sortedByKey (sortedMembers members))
  | j => j

def sortedItems : List Json → List Json
  | [] => []
  | j :: rest => sorted j :: sortedItems rest

def sortedMembers : List (String × Json) → List (String × Json)
  | [] => []
  | (k, j) :: rest => (k, sorted j) :: sortedMembers rest

end

end Json

end NodeLayers
