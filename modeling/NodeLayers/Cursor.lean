import NodeLayers.Token

namespace NodeLayers

/-- A place in a list of tokens. The tokens passed are kept nearest first, and the current token is
the last one passed; `nesting` counts the blocks entered and not yet left. -/
structure Cursor where
  passed : List Token
  ahead : List Token
  nesting : Nat
deriving DecidableEq, Repr

namespace Cursor

def ofTokens (tokens : List Token) : Cursor :=
  ⟨[], tokens, 0⟩

def tokens (c : Cursor) : List Token :=
  c.passed.reverse ++ c.ahead

def current? (c : Cursor) : Option Token :=
  c.passed.head?

/-- The text of the current token, empty in front of the first one. -/
def text (c : Cursor) : String :=
  (c.current?.map Token.text).getD ""

def atOpen (c : Cursor) : Bool :=
  c.current?.any Token.opens

def atClose (c : Cursor) : Bool :=
  c.current?.any Token.closes

def next? (c : Cursor) : Option Cursor :=
  match c.ahead with
  | [] => none
  | t :: rest => some { c with passed := t :: c.passed, ahead := rest }

def prev? (c : Cursor) : Option Cursor :=
  match c.passed with
  | [] => none
  | t :: rest => some { c with passed := rest, ahead := t :: c.ahead }

/-- The next token continues the line of the current one; in front of the first token every token
does. -/
def nextSharesLine (c : Cursor) : Bool :=
  match c.current?, c.ahead with
  | some t, u :: _ => t.sharesLine u
  | _, _ => true

def nextOnLine? (c : Cursor) : Option Cursor :=
  if c.nextSharesLine then c.next? else none

/-- One token on, if that token is an argument on the current line: an opening brace is none. -/
def nextArg? (c : Cursor) : Option Cursor :=
  c.nextOnLine?.filter (!·.atOpen)

def opensBlock (c : Cursor) : Bool :=
  match c.current?, c.ahead with
  | some t, u :: _ => u.opens && t.sharesLine u
  | _, _ => false

/-- The nesting after the current token, a brace, has been counted. -/
def countBrace (c : Cursor) : Cursor :=
  if c.atClose then { c with nesting := c.nesting - 1 }
  else if c.atOpen then { c with nesting := c.nesting + 1 }
  else c

/-- The next stop inside a block, and whether there is one. At `depth` the block has still to be
opened by a brace on the current line, and the first stop is the token after the brace. Deeper,
every token is a stop until the nesting is back at `depth`. -/
def nextInBlock (c : Cursor) (depth : Nat) : Bool × Cursor :=
  if depth < c.nesting then
    match c.next? with
    | none => (false, c)
    | some d => (decide (depth < d.countBrace.nesting), d.countBrace)
  else
    match c.nextOnLine? with
    | none => (false, c)
    | some brace =>
      if brace.atOpen then
        match brace.next? with
        | none => (false, brace)
        | some first =>
          if first.atClose then (false, first)
          else (true, { first with nesting := first.nesting + 1 })
      else (false, c)

/-- Where a fault at the cursor is reported: the current token, or else the first one. -/
def location (c : Cursor) : Location :=
  ((c.current?.or c.ahead.head?).map Token.location).getD ⟨none, 0⟩

def fail (c : Cursor) (fault : Fault) : ParseError :=
  ⟨c.location, fault⟩

def missingArgument (c : Cursor) : ParseError :=
  c.fail (.missingArgument c.text)

def invalidValue (c : Cursor) (reason : ValueFault) : ParseError :=
  c.fail (.invalidValue c.text reason)

def unknownOption (c : Cursor) : ParseError :=
  c.fail (.unknownOption c.text)

theorem length_ahead_of_next? {c d : Cursor} (h : c.next? = some d) :
    d.ahead.length + 1 = c.ahead.length := by
  unfold next? at h
  split at h
  next => cases h
  next t rest ht => cases h; simp [ht]

theorem tokens_of_next? {c d : Cursor} (h : c.next? = some d) : d.tokens = c.tokens := by
  unfold next? at h
  split at h
  next => cases h
  next t rest ht => cases h; simp [tokens, ht]

theorem next?_of_nextOnLine? {c d : Cursor} (h : c.nextOnLine? = some d) : c.next? = some d := by
  unfold nextOnLine? at h
  split at h
  next => exact h
  next => cases h

theorem next?_of_nextArg? {c d : Cursor} (h : c.nextArg? = some d) : c.next? = some d :=
  next?_of_nextOnLine? (Option.filter_eq_some_iff.mp h).1

theorem length_ahead_of_nextArg? {c d : Cursor} (h : c.nextArg? = some d) :
    d.ahead.length + 1 = c.ahead.length :=
  length_ahead_of_next? (next?_of_nextArg? h)

@[simp] theorem ahead_countBrace (c : Cursor) : c.countBrace.ahead = c.ahead := by
  unfold countBrace
  split
  next => rfl
  next => split <;> rfl

@[simp] theorem passed_countBrace (c : Cursor) : c.countBrace.passed = c.passed := by
  unfold countBrace
  split
  next => rfl
  next => split <;> rfl

@[simp] theorem tokens_countBrace (c : Cursor) : c.countBrace.tokens = c.tokens := by
  simp [tokens]

@[simp] theorem tokens_nextInBlock (c : Cursor) (depth : Nat) :
    (c.nextInBlock depth).2.tokens = c.tokens := by
  unfold nextInBlock
  split
  next =>
    split
    next => rfl
    next d hd => simp [tokens_of_next? hd]
  next =>
    split
    next => rfl
    next brace hb =>
      have hbrace := tokens_of_next? (next?_of_nextOnLine? hb)
      split
      next =>
        split
        next => exact hbrace
        next first hf =>
          have hfirst := (tokens_of_next? hf).trans hbrace
          split
          next => exact hfirst
          next => exact hfirst
      next => rfl

theorem length_ahead_nextInBlock_le (c : Cursor) (depth : Nat) :
    (c.nextInBlock depth).2.ahead.length ≤ c.ahead.length := by
  unfold nextInBlock
  split
  next =>
    split
    next => exact Nat.le_refl _
    next d hd => have := length_ahead_of_next? hd; simp; omega
  next =>
    split
    next => exact Nat.le_refl _
    next brace hb =>
      have hbrace := length_ahead_of_next? (next?_of_nextOnLine? hb)
      split
      next =>
        split
        next => simp; omega
        next first hf =>
          have hfirst := length_ahead_of_next? hf
          split <;> simp <;> omega
      next => exact Nat.le_refl _

/-- Every stop lies further on than the last. -/
theorem length_ahead_of_nextInBlock {c d : Cursor} {depth : Nat}
    (h : c.nextInBlock depth = (true, d)) : d.ahead.length < c.ahead.length := by
  unfold nextInBlock at h
  split at h
  next =>
    split at h
    next => cases h
    next e he =>
      have := length_ahead_of_next? he
      obtain ⟨_, rfl⟩ := Prod.mk.inj h
      simp
      omega
  next =>
    split at h
    next => cases h
    next brace hb =>
      have hbrace := length_ahead_of_next? (next?_of_nextOnLine? hb)
      split at h
      next =>
        split at h
        next => cases h
        next first hf =>
          have hfirst := length_ahead_of_next? hf
          split at h
          next => cases h
          next => cases h; simp; omega
      next => cases h

end Cursor

end NodeLayers
