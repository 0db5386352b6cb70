namespace NodeLayers

/-- The characters of the Unicode property White_Space. -/
def isBlank (c : Char) : Bool :=
  let n := c.toNat
  (0x9 ≤ n && n ≤ 0xD) || n == 0x20 || n == 0x85 || n == 0xA0 || n == 0x1680
    || (0x2000 ≤ n && n ≤ 0x200A) || n == 0x2028 || n == 0x2029 || n == 0x202F || n == 0x205F
    || n == 0x3000

def newlines (cs : List Char) : Nat :=
  cs.count '\n'

@[simp] theorem newlines_append (cs ds : List Char) :
    newlines (cs ++ ds) = newlines cs + newlines ds :=
  List.count_append

theorem isBlank_newline : isBlank '\n' = true := by decide

inductive Quote
  | double
  | backtick
deriving DecidableEq, Repr

def Quote.mark : Quote → Char
  | .double => '"'
  | .backtick => '\x60'

def Quote.ofMark? (c : Char) : Option Quote :=
  if c = Quote.double.mark then some .double
  else if c = Quote.backtick.mark then some .backtick
  else none

/-- Between double quotes a backslash keeps a quote or a backslash that follows it from its usual
meaning; any other backslash stands for itself. -/
def Quote.escapes (q : Quote) (c d : Char) : Bool :=
  q = .double ∧ c = '\\' ∧ (d = '"' ∨ d = '\\')

/-- The body before the closing mark, and what follows the mark. -/
def Quote.close? (q : Quote) : List Char → Option (List Char × List Char)
  | [] => none
  | [c] => if c = q.mark then some ([], []) else none
  | c :: d :: rest =>
    if c = q.mark then some ([], d :: rest)
    else if q.escapes c d then (q.close? rest).map fun (body, after) => (c :: d :: body, after)
    else (q.close? (d :: rest)).map fun (body, after) => (c :: body, after)

def Quote.decode (q : Quote) : List Char → List Char
  | c :: d :: rest =>
    if q.escapes c d then d :: q.decode rest else c :: q.decode (d :: rest)
  | cs => cs

/-- One part of a document's text, with the characters it was written with. -/
inductive Piece
  | blank (c : Char)
  | comment (body : List Char)
  | quoted (q : Quote) (body : List Char)
  | word (chars : List Char)
deriving DecidableEq, Repr

def Piece.chars : Piece → List Char
  | .blank c => [c]
  | .comment body => '#' :: body
  | .quoted q body => q.mark :: body ++ [q.mark]
  | .word cs => cs

/-- The piece that starts with `c`, and the characters after it; a quote that is never closed is the
only thing that starts none. -/
def Piece.next (c : Char) (rest : List Char) : Except Quote (Piece × List Char) :=
  if isBlank c then .ok (.blank c, rest)
  else if c = '#' then
    .ok (.comment (rest.takeWhile (· ≠ '\n')), rest.dropWhile (· ≠ '\n'))
  else match Quote.ofMark? c with
    | some q =>
      match q.close? rest with
      | some (body, after) => .ok (.quoted q body, after)
      | none => .error q
    | none => .ok (.word (c :: rest.takeWhile (!isBlank ·)), rest.dropWhile (!isBlank ·))

theorem Quote.ofMark?_eq_some {c : Char} {q : Quote} (h : Quote.ofMark? c = some q) :
    c = q.mark := by
  unfold Quote.ofMark? at h
  split at h
  next hc => cases h; exact hc
  next =>
    split at h
    next hc => cases h; exact hc
    next => cases h

theorem Quote.close?_eq_some {q : Quote} {cs body after : List Char}
    (h : q.close? cs = some (body, after)) : cs = body ++ q.mark :: after := by
  fun_induction Quote.close? q cs generalizing body after with
  | case1 => cases h
  | case2 => cases h; simp
  | case3 => cases h
  | case4 => cases h; simp
  | case5 c d rest _ _ ih =>
    obtain ⟨⟨b, a⟩, hp, he⟩ := Option.map_eq_some_iff.mp h
    cases he
    simp [ih hp]
  | case6 c d rest _ _ ih =>
    obtain ⟨⟨b, a⟩, hp, he⟩ := Option.map_eq_some_iff.mp h
    cases he
    simp [ih hp]

/-- No character is lost between pieces. -/
theorem Piece.next_chars {c : Char} {rest after : List Char} {p : Piece}
    (h : Piece.next c rest = .ok (p, after)) : p.chars ++ after = c :: rest := by
  unfold Piece.next at h
  split at h
  next => cases h; rfl
  next =>
    split at h
    next hc => cases h; simp [Piece.chars, hc, List.takeWhile_append_dropWhile]
    next =>
      split at h
      next q hq =>
        split at h
        next body a hb =>
          cases h
          simp [Piece.chars, Quote.close?_eq_some hb, Quote.ofMark?_eq_some hq]
        next => cases h
      next => cases h; simp [Piece.chars, List.takeWhile_append_dropWhile]

theorem Piece.length_after_le {c : Char} {rest after : List Char} {p : Piece}
    (h : Piece.next c rest = .ok (p, after)) : after.length ≤ rest.length := by
  unfold Piece.next at h
  split at h
  next => cases h; exact Nat.le_refl _
  next =>
    split at h
    next => cases h; exact (List.dropWhile_sublist _).length_le
    next =>
      split at h
      next =>
        split at h
        next hb => cases h; simp [Quote.close?_eq_some hb]; omega
        next => cases h
      next => cases h; exact (List.dropWhile_sublist _).length_le

structure Pieces where
  pieces : List Piece
  unclosed : Option Quote
deriving DecidableEq, Repr

def Pieces.ofChars : List Char → Pieces
  | [] => ⟨[], none⟩
  | c :: rest =>
    match h : Piece.next c rest with
    | .error q => ⟨[], some q⟩
    | .ok (p, after) =>
      have := Piece.length_after_le h
      let tail := Pieces.ofChars after
      ⟨p :: tail.pieces, tail.unclosed⟩
termination_by cs => cs.length

/-- The pieces are the whole text, unless a quote is never closed. -/
theorem Pieces.chars_ofChars {cs : List Char} (h : (Pieces.ofChars cs).unclosed = none) :
    (Pieces.ofChars cs).pieces.flatMap Piece.chars = cs := by
  fun_induction Pieces.ofChars cs with
  | case1 => rfl
  | case2 c rest q => cases h
  | case3 c rest p after hp hlt tail ih =>
    rw [List.flatMap_cons, ih h]
    exact Piece.next_chars hp

end NodeLayers
