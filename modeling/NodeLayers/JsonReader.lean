import NodeLayers.JsonNumber

namespace NodeLayers

def isJsonBlank (c : Char) : Bool :=
  c = ' ' ∨ c = '\t' ∨ c = '\n' ∨ c = '\r'

def skipBlanks (cs : List Char) : List Char :=
  cs.dropWhile isJsonBlank

def hexValue? (c : Char) : Option Nat :=
  if '0' ≤ c ∧ c ≤ '9' then some (c.toNat - '0'.toNat)
  else if 'a' ≤ c ∧ c ≤ 'f' then some (c.toNat - 'a'.toNat + 10)
  else if 'A' ≤ c ∧ c ≤ 'F' then some (c.toNat - 'A'.toNat + 10)
  else none

/-- Four digits in base sixteen. A text with fewer than four bytes left has ended. -/
def readHex (cs : List Char) : Except JsonError (Parsed Nat) :=
  match cs with
  | a :: b :: c :: d :: rest =>
    match hexValue? a, hexValue? b, hexValue? c, hexValue? d with
    | some a, some b, some c, some d => .ok (((16 * a + b) * 16 + c) * 16 + d, rest)
    | _, _, _, _ => .error .malformed
  | _ => if (String.ofList cs).utf8ByteSize < 4 then .error .ended else .error .malformed

def escapedChar? (c : Char) : Option Char :=
  match c with
  | '"' => some '"'
  | '\\' => some '\\'
  | '/' => some '/'
  | 'b' => some '\x08'
  | 'f' => some '\x0c'
  | 'n' => some '\n'
  | 'r' => some '\r'
  | 't' => some '\t'
  | _ => none

/-- The second half of a character that takes two escapes, the first half of which was `high`. -/
def readLowHalf (high : Nat) (cs : List Char) : Except JsonError (Parsed Char) :=
  match cs with
  | [] => .error .ended
  | c :: cs =>
    if c = '\\' then
      match cs with
      | [] => .error .ended
      | d :: cs =>
        if d = 'u' then do
          let (low, rest) ← readHex cs
          if 0xDC00 ≤ low ∧ low ≤ 0xDFFF then
            .ok (Char.ofNat ((high - 0xD800) * 0x400 + (low - 0xDC00) + 0x10000), rest)
          else .error .malformed
        else .error .malformed
    else .error .malformed

/-- The character that an escape stands for, from behind its backslash. -/
def readEscape (cs : List Char) : Except JsonError (Parsed Char) :=
  match cs with
  | [] => .error .ended
  | c :: rest =>
    if c = 'u' then do
      let (n, rest) ← readHex rest
      if n < 0xD800 ∨ 0xDFFF < n then .ok (Char.ofNat n, rest)
      else if n ≤ 0xDBFF then readLowHalf n rest
      else .error .malformed
    else
      match escapedChar? c with
      | some d => .ok (d, rest)
      | none => .error .malformed

def skipEscape (cs : List Char) : Except JsonError (List Char) :=
  match cs with
  | [] => .error .ended
  | c :: rest =>
    if c = 'u' then (readHex rest).map Prod.snd
    else if (escapedChar? c).isSome then .ok rest
    else .error .malformed

def textFrom : Nat → List Char → List Char → Except JsonError (Parsed String)
  | _, _, [] => .error .ended
  | 0, _, _ => .error .malformed
  | fuel + 1, before, c :: cs =>
    if c = '"' then .ok (String.ofList before.reverse, cs)
    else if c = '\\' then
      match readEscape cs with
      | .ok (d, rest) => textFrom fuel (d :: before) rest
      | .error e => .error e
    else if c.toNat < 0x20 then .error .malformed
    else textFrom fuel (c :: before) cs

def readTextBody (cs : List Char) : Except JsonError (Parsed String) :=
  textFrom cs.length [] cs

def skipTextFrom : Nat → List Char → Except JsonError (List Char)
  | _, [] => .error .ended
  | 0, _ => .error .malformed
  | fuel + 1, c :: cs =>
    if c = '"' then .ok cs
    else if c = '\\' then
      match skipEscape cs with
      | .ok rest => skipTextFrom fuel rest
      | .error e => .error e
    else if c.toNat < 0x20 then .error .malformed
    else skipTextFrom fuel cs

def skipTextBody (cs : List Char) : Except JsonError (List Char) :=
  skipTextFrom cs.length cs

def skipWord : List Char → List Char → Except JsonError (List Char)
  | [], cs => .ok cs
  | _ :: _, [] => .error .ended
  | w :: ws, c :: cs => if c = w then skipWord ws cs else .error .malformed

def readNumber (negative : Bool) (cs : List Char) : Except JsonError (Parsed Found) := do
  let (numeral, rest) ← readNumeral negative cs
  match numeral.found? with
  | some f => .ok (f, rest)
  | none => .error .malformed

/-- A scalar, or the opening bracket of a container. -/
def readFound (cs : List Char) : Except JsonError (Parsed Found) :=
  match skipBlanks cs with
  | [] => .error .ended
  | c :: rest =>
    if c = 'n' then do .ok (.null, ← skipWord ['u', 'l', 'l'] rest)
    else if c = 't' then do .ok (.bool true, ← skipWord ['r', 'u', 'e'] rest)
    else if c = 'f' then do .ok (.bool false, ← skipWord ['a', 'l', 's', 'e'] rest)
    else if c = '"' then do
      let (s, rest) ← readTextBody rest
      .ok (.text s, rest)
    else if c = '[' then .ok (.list, rest)
    else if c = '\x7b' then .ok (.object, rest)
    else if c = '-' then readNumber true rest
    else if c.isDigit then readNumber false (c :: rest)
    else .error .malformed

/-- A scalar that is converted, or refused before anything behind it is looked at. -/
def readAs {α : Type} (convert : Found → Except Mismatch α) (cs : List Char) :
    Except JsonError (Parsed α) := do
  let (f, rest) ← readFound cs
  match convert f with
  | .ok value => .ok (value, rest)
  | .error reason => .error (.mismatch reason)

/-- Items from the first one to the closing bracket; `item` adds one to what was read before. -/
def itemsFrom {σ : Type} (item : σ → Reader σ) : Nat → σ → Reader σ
  | 0, _, _ => .error .malformed
  | fuel + 1, s, cs => do
    let (s, rest) ← item s cs
    match skipBlanks rest with
    | [] => .error .ended
    | c :: rest =>
      if c = ',' then itemsFrom item fuel s rest
      else if c = ']' then .ok (s, rest)
      else .error .malformed

def readItems {σ : Type} (item : σ → Reader σ) (s : σ) (cs : List Char) :
    Except JsonError (Parsed σ) :=
  match skipBlanks cs with
  | ']' :: rest => .ok (s, rest)
  | _ => itemsFrom item (cs.length + 1) s cs

def readName (cs : List Char) : Except JsonError (Parsed String) :=
  match skipBlanks cs with
  | [] => .error .ended
  | c :: rest => if c = '"' then readTextBody rest else .error .malformed

def skipColon (cs : List Char) : Except JsonError (List Char) :=
  match skipBlanks cs with
  | [] => .error .ended
  | c :: rest => if c = ':' then .ok rest else .error .malformed

/-- Members from the first one to the closing brace; `member` adds the one of a name to what was
read before, from behind the name. -/
def membersFrom {σ : Type} (member : σ → String → Reader σ) : Nat → σ → Reader σ
  | 0, _, _ => .error .malformed
  | fuel + 1, s, cs => do
    let (name, rest) ← readName cs
    let (s, rest) ← member s name rest
    match skipBlanks rest with
    | [] => .error .ended
    | c :: rest =>
      if c = ',' then membersFrom member fuel s rest
      else if c = '\x7d' then .ok (s, rest)
      else .error .malformed

def readMembers {σ : Type} (member : σ → String → Reader σ) (s : σ) (cs : List Char) :
    Except JsonError (Parsed σ) :=
  match skipBlanks cs with
  | '\x7d' :: rest => .ok (s, rest)
  | _ => membersFrom member (cs.length + 1) s cs

/-- A value as a whole; `room` more containers may be opened in one another. -/
def readValue : Nat → List Char → Except JsonError (Parsed Json)
  | room, cs => do
    let (f, rest) ← readFound cs
    match f with
    | .null => .ok (.null, rest)
    | .bool b => .ok (.bool b, rest)
    | .integer n => .ok (.integer n, rest)
    | .real x => .ok (.real x, rest)
    | .text s => .ok (.text s, rest)
    | .list =>
      match room with
      | 0 => .error .malformed
      | room + 1 => do
        let (items, rest) ← readItems (fun items cs => do
          let (j, rest) ← readValue room cs
          .ok (items ++ [j], rest)) [] rest
        .ok (.list items, rest)
    | .object =>
      match room with
      | 0 => .error .malformed
      | room + 1 => do
        let (members, rest) ← readMembers (fun members name cs => do
          let (j, rest) ← readValue room (← skipColon cs)
          .ok (members ++ [(name, j)], rest)) [] rest
        .ok (.object members, rest)

inductive Bracket
  | list
  | object
deriving DecidableEq, Repr

def Bracket.close : Bracket → Char
  | .list => ']'
  | .object => '\x7d'

/-- Closes containers behind a value, innermost first, up to a comma or until none is left. -/
def closeBrackets : List Bracket → List Char → Except JsonError (Parsed (List Bracket))
  | [], cs => .ok ([], cs)
  | b :: enclosing, cs =>
    match skipBlanks cs with
    | [] => .error .ended
    | c :: rest =>
      if c = ',' then .ok (b :: enclosing, rest)
      else if c = b.close then closeBrackets enclosing rest
      else .error .malformed

def skipName (cs : List Char) : Except JsonError (List Char) :=
  match skipBlanks cs with
  | [] => .error .ended
  | c :: rest =>
    if c = '"' then do skipColon (← skipTextBody rest) else .error .malformed

/-- Passes over a scalar whatever its value: only its form counts, and a number is malformed also
where the text ends too early. -/
def skipScalar (c : Char) (rest : List Char) : Except JsonError (List Char) :=
  if c = 'n' then skipWord ['u', 'l', 'l'] rest
  else if c = 't' then skipWord ['r', 'u', 'e'] rest
  else if c = 'f' then skipWord ['a', 'l', 's', 'e'] rest
  else if c = '"' then skipTextBody rest
  else if c = '-' then ((readNumeral true rest).map Prod.snd).mapError fun _ => .malformed
  else if c.isDigit then ((readNumeral false (c :: rest)).map Prod.snd).mapError fun _ => .malformed
  else .error .malformed

/-- Passes over values up to the end of the containers that enclose them, innermost first. -/
def skipValues : Nat → List Bracket → List Char → Except JsonError (List Char)
  | 0, _, _ => .error .malformed
  | fuel + 1, enclosing, cs =>
    match skipBlanks cs with
    | [] => .error .ended
    | c :: rest =>
      let opened : Option Bracket :=
        if c = '[' then some .list else if c = '\x7b' then some .object else none
      let next : Except JsonError (Parsed (List Bracket)) :=
        match opened with
        | none => do closeBrackets enclosing (← skipScalar c rest)
        | some b =>
          match skipBlanks rest with
          | [] => .error .ended
          | d :: after =>
            if d = b.close then closeBrackets enclosing after
            else .ok (b :: enclosing, d :: after)
      match next with
      | .error e => .error e
      | .ok ([], rest) => .ok rest
      | .ok (.list :: outer, rest) => skipValues fuel (.list :: outer) rest
      | .ok (.object :: outer, rest) => do
        skipValues fuel (.object :: outer) (← skipName rest)

def skipValue (cs : List Char) : Except JsonError (List Char) :=
  skipValues (cs.length + 1) [] cs

def readWholeText {α : Type} (read : Reader α) (s : String) : Except JsonError α := do
  let (value, rest) ← read s.toList
  if (skipBlanks rest).isEmpty then .ok value else .error .malformed

end NodeLayers
