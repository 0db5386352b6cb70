import NodeLayers.Json
import NodeLayers.YamlNumber

namespace NodeLayers

inductive ScalarStyle
  | plain
  | single
  | double
  | literal
deriving DecidableEq, Repr

def isYamlBreak (c : Char) : Bool :=
  c = '\n' ∨ c = '\r' ∨ c = '\x85' ∨ c = '\u2028' ∨ c = '\u2029'

def endsWord (c : Char) : Bool :=
  c = ' ' ∨ c = '\t' ∨ c = '\x00' ∨ isYamlBreak c

/-- A character that may stand in a text without an escape. -/
def isYamlPrintable (c : Char) : Bool :=
  let n := c.toNat
  n = 0xA ∨ (0x20 ≤ n ∧ n ≤ 0x7E) ∨ (0xA0 ≤ n ∧ n ≤ 0xFFFD ∧ n ≠ 0xFEFF) ∨ 0x10000 ≤ n

def opensIndicator (c : Char) : Bool :=
  c ∈ ['#', ',', '[', ']', '\x7b', '\x7d', '&', '*', '!', '|', '>', '\'', '"', '%', '@', '\x60']

/-- A character after the first one that means something of its own; `spaced` tells whether a word
ended before. -/
def hasInnerIndicator : Bool → List Char → Bool
  | _, [] => false
  | spaced, c :: rest =>
    (c = ':' && rest.head?.all endsWord) || (c = '#' && spaced) ||
      hasInnerIndicator (endsWord c) rest

def hasIndicator : List Char → Bool
  | [] => false
  | c :: rest =>
    (c :: rest).take 3 = ['-', '-', '-'] || (c :: rest).take 3 = ['.', '.', '.'] ||
      opensIndicator c ||
      ((c = '?' ∨ c = ':' ∨ c = '-') && rest.head?.all endsWord) ||
      hasInnerIndicator (endsWord c) rest

/-- Two neighbours of which the first passes one test and the second the other. -/
def hasNeighbours (p q : Char → Bool) : List Char → Bool
  | c :: d :: rest => (p c && q d) || hasNeighbours p q (d :: rest)
  | _ => false

namespace ScalarStyle

def isSpace (c : Char) : Bool :=
  c = ' '

/-- Nothing in the text needs an escape, and no line of it ends in a space. -/
def isWritable (s : List Char) : Bool :=
  s.all isYamlPrintable && !hasNeighbours isSpace isYamlBreak s

def allowsSingle (s : List Char) : Bool :=
  isWritable s && !hasNeighbours isYamlBreak isSpace s

def allowsLiteral (s : List Char) : Bool :=
  isWritable s && !s.getLast?.any isSpace

def allowsPlain (s : List Char) : Bool :=
  allowsSingle s && !s.head?.any isSpace && !s.getLast?.any isSpace && !s.any isYamlBreak &&
    !hasIndicator s

/-- A text that a reader would take for something else than a text. -/
def isAmbiguous (s : List Char) : Bool :=
  s.isEmpty || String.ofList s ∈ ["null", "Null", "NULL", "~", "true", "True", "TRUE", "false",
    "False", "FALSE"] || readsAsNumber s

/-- The plainest style that gives the text back; a text of several lines is written line by line. -/
def ofText (s : List Char) : ScalarStyle :=
  if '\n' ∈ s then
    if allowsLiteral s then .literal else .double
  else if !isAmbiguous s && allowsPlain s then .plain
  else if allowsSingle s then .single
  else .double

end ScalarStyle

def yamlEscape (c : Char) : List Char :=
  let n := c.toNat
  let upper (width : Nat) : List Char := (hexDigits width n).map Char.toUpper
  let letter : Option Char := match n with
    | 0x00 => some '0'
    | 0x07 => some 'a'
    | 0x08 => some 'b'
    | 0x09 => some 't'
    | 0x0A => some 'n'
    | 0x0B => some 'v'
    | 0x0C => some 'f'
    | 0x0D => some 'r'
    | 0x1B => some 'e'
    | 0x22 => some '"'
    | 0x5C => some '\\'
    | 0x85 => some 'N'
    | 0xA0 => some '_'
    | 0x2028 => some 'L'
    | 0x2029 => some 'P'
    | _ => none
  match letter with
  | some l => ['\\', l]
  | none =>
    if n ≤ 0xFF then '\\' :: 'x' :: upper 2
    else if n ≤ 0xFFFF then '\\' :: 'u' :: upper 4
    else '\\' :: 'U' :: upper 8

def doubleQuotedChars (s : List Char) : List Char :=
  let char (c : Char) : List Char :=
    if !isYamlPrintable c || isYamlBreak c || c = '"' || c = '\\' then yamlEscape c else [c]
  '"' :: s.flatMap char ++ ['"']

def blanks (width : Nat) : List Char :=
  List.replicate width ' '

/-- A text with its lines indented; `broken` tells whether a line has just ended. -/
def indentLines (indent : Nat) (char : Char → List Char) : Bool → List Char → List Char
  | _, [] => []
  | broken, c :: rest =>
    if isYamlBreak c then c :: indentLines indent char true rest
    else (if broken then blanks indent else []) ++ char c ++ indentLines indent char false rest

/-- A quote is written twice, and lines after the first are indented. -/
def singleQuotedChars (indent : Nat) (s : List Char) : List Char :=
  let quote (c : Char) : List Char := if c = '\'' then ['\'', '\''] else [c]
  '\'' :: indentLines indent quote false s ++
    (if s.getLast?.any isYamlBreak then blanks indent else []) ++ ['\'']

/-- What happens to the line ends behind a text: none is there, one is kept, or all are. -/
def chompingMark (s : List Char) : List Char :=
  match s.reverse with
  | c :: rest =>
    if !isYamlBreak c then ['-']
    else match rest with
      | [] => ['+']
      | d :: _ => if isYamlBreak d then ['+'] else []
  | [] => ['-']

/-- A text line by line. The depth of the indentation is told where the text's own beginning would
hide it. -/
def literalChars (indent : Nat) (s : List Char) : List Char :=
  let hint := if s.head?.any fun c => c = ' ' ∨ isYamlBreak c then ['2'] else []
  '|' :: hint ++ chompingMark s ++ '\n' :: indentLines indent (fun c => [c]) true s

/-- A text in its style; further lines of it stand at `indent`. -/
def scalarText (indent : Nat) (s : String) : List Char :=
  let cs := s.toList
  match ScalarStyle.ofText cs with
  | .plain => cs
  | .single => singleQuotedChars indent cs
  | .double => doubleQuotedChars cs
  | .literal => literalChars indent cs

end NodeLayers
