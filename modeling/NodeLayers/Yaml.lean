import NodeLayers.YamlScalar

namespace NodeLayers

/-- A key that stands on one line with its value. -/
def isSimpleKey (k : String) : Bool :=
  !k.toList.any isYamlBreak && k.utf8ByteSize ≤ 128

/-- The text with a line end behind it, if its last line has not ended yet. -/
def endLine (cs : List Char) : List Char :=
  if cs.getLast?.any isYamlBreak then cs else cs ++ ['\n']

namespace Json

/-- A key and its value. The value's text depends on whether it stands behind a lone colon; a key
that needs more than a line is announced by a question mark. -/
def yamlMember (indent : Nat) (k : String) (value : Bool → List Char) : List Char :=
  if isSimpleKey k then scalarText (indent + 2) k ++ ':' :: value false
  else endLine ('?' :: ' ' :: scalarText (indent + 2) k) ++ blanks indent ++ ':' :: value true

mutual

/-- The value behind a key or a dash whose line starts at `indent`. Behind a dash or a lone colon a
container goes on in the same line, elsewhere it starts on the next one. -/
def yamlValue (indent : Nat) (goesOn : Bool) : Json → List Char
  | .text s => ' ' :: scalarText (indent + 2) s
  | .list [] => [' ', '[', ']']
  | .list items =>
    if goesOn then ' ' :: yamlItems (indent + 2) items
    else '\n' :: blanks indent ++ yamlItems indent items
  | .object [] => [' ', '\x7b', '\x7d']
  | .object members =>
    (if goesOn then [' '] else '\n' :: blanks (indent + 2)) ++ yamlMembers (indent + 2) members
  | j => ' ' :: scalarChars j

/-- The items of a list, one dash each; the first stands where the text is. -/
def yamlItems (indent : Nat) : List Json → List Char
  | [] => []
  | [j] => '-' :: yamlValue indent true j
  | j :: rest =>
    endLine ('-' :: yamlValue indent true j) ++ blanks indent ++ yamlItems indent rest

/-- The members of an object, one key each; the first stands where the text is. -/
def yamlMembers (indent : Nat) : List (String × Json) → List Char
  | [] => []
  | [(k, j)] => yamlMember indent k fun goesOn => yamlValue indent goesOn j
  | (k, j) :: rest =>
    endLine (yamlMember indent k fun goesOn => yamlValue indent goesOn j) ++ blanks indent ++
      yamlMembers indent rest

end

def yaml (j : Json) : String :=
  String.ofList <| endLine <|
    match j with
    | .list items => if items.isEmpty then ['[', ']'] else yamlItems 0 items
    | .object members => if members.isEmpty then ['\x7b', '\x7d'] else yamlMembers 0 members
    | .text s => scalarText 2 s
    | j => scalarChars j

end Json

end NodeLayers
