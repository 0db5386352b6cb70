import NodeLayers.Fault

namespace NodeLayers

/-- A word or a quoted text, with the line on which it starts. -/
structure Token where
  source : Source
  line : Nat
  text : String
  quoted : Bool
deriving DecidableEq, Repr

/-- Only a bare brace opens a block. -/
def Token.opens (t : Token) : Bool :=
  !t.quoted && t.text == "\x7b"

def Token.closes (t : Token) : Bool :=
  !t.quoted && t.text == "\x7d"

def Token.location (t : Token) : Location :=
  ⟨t.source, t.line⟩

/-- The line of the token's last character. -/
def Token.lastLine (t : Token) : Nat :=
  t.line + newlines t.text.toList

/-- `next` stands on the line on which `t` ends. -/
def Token.sharesLine (t next : Token) : Bool :=
  Source.agrees t.source next.source && next.line ≤ t.lastLine

theorem Token.not_closes_of_opens {t : Token} (h : t.opens = true) : t.closes = false := by
  simp only [Token.opens, Bool.and_eq_true, beq_iff_eq] at h
  simp [Token.closes, h.2]

/-- Quoted pieces and words are tokens; blanks and comments are not. -/
def Piece.token? (source : Source) (line : Nat) : Piece → Option Token
  | .quoted q body => some ⟨source, line, String.ofList (q.decode body), true⟩
  | .word cs => some ⟨source, line, String.ofList cs, false⟩
  | .blank _ | .comment _ => none

def tokensOf (source : Source) : Nat → List Piece → List Token
  | _, [] => []
  | line, p :: ps =>
    (p.token? source line).toList ++ tokensOf source (line + newlines p.chars) ps

/-- The tokens of a text, or the place of its unclosed quote. -/
def tokenize (source : Source) (text : String) : Except ParseError (List Token) :=
  let parts := Pieces.ofChars text.toList
  match parts.unclosed with
  | none => .ok (tokensOf source 1 parts.pieces)
  | some q =>
    .error ⟨⟨source, 1 + newlines (parts.pieces.flatMap Piece.chars)⟩, .unterminatedQuote q⟩

end NodeLayers
