import NodeLayers.Proofs.Layout
import NodeLayers.Proofs.Pieces
import Mathlib.Algebra.Ring.Nat

namespace NodeLayers

/-- A word of a text to be written, as it stands or between double quotes. -/
inductive Word
  | bare (text : String)
  | quoted (text : String)
deriving DecidableEq, Repr

abbrev Line := List Word

def Word.text : Word → String
  | .bare s | .quoted s => s

/-- A backslash in front of each quote and each backslash. -/
def escaped : List Char → List Char
  | [] => []
  | c :: cs => if c = '"' ∨ c = '\\' then '\\' :: c :: escaped cs else c :: escaped cs

def Word.piece : Word → Piece
  | .bare s => .word s.toList
  | .quoted s => .quoted .double (escaped s.toList)

/-- The words of a line with blanks between them, and its end. -/
def Line.pieces : Line → List Piece
  | [] => [.blank '\n']
  | [w] => [w.piece, .blank '\n']
  | w :: v :: ws => w.piece :: .blank ' ' :: Line.pieces (v :: ws)

def written (lines : List Line) : String :=
  String.ofList ((lines.flatMap Line.pieces).flatMap Piece.chars)

def Word.newlines (w : Word) : Nat :=
  NodeLayers.newlines w.text.toList

def Line.newlines (ws : Line) : Nat :=
  (ws.map Word.newlines).sum

/-- The number of lines in the text that a line takes up. -/
def Line.height (ws : Line) : Nat :=
  ws.newlines + 1

def height (lines : List Line) : Nat :=
  (lines.map Line.height).sum

def Word.token (source : Source) (line : Nat) : Word → Token
  | .bare s => ⟨source, line, s, false⟩
  | .quoted s => ⟨source, line, s, true⟩

def Line.place (source : Source) : Nat → Line → List Token
  | _, [] => []
  | n, w :: ws => w.token source n :: Line.place source (n + w.newlines) ws

/-- The tokens of lines that start here. -/
def place (source : Source) : Nat → List Line → List Token
  | _, [] => []
  | n, ws :: lines => ws.place source n ++ place source (n + ws.height) lines

theorem encloses_escaped (cs : List Char) : Quote.double.Encloses (escaped cs) := by
  induction cs with
  | nil => trivial
  | cons c cs ih =>
    rw [escaped]
    split
    next hc =>
      have hescapes : Quote.double.escapes '\\' c = true := by
        simpa [Quote.escapes] using hc
      rw [Quote.Encloses, if_pos hescapes]
      exact ⟨by decide, ih⟩
    next hc =>
      obtain ⟨hquote, hslash⟩ := not_or.mp hc
      have hescapes : ∀ d, Quote.double.escapes c d = false := by
        intro d
        simp [Quote.escapes, hslash]
      cases hrest : escaped cs with
      | nil => exact ⟨hquote, hescapes _⟩
      | cons d rest =>
        rw [hrest] at ih
        rw [Quote.Encloses, if_neg (by simp [hescapes d])]
        exact ⟨hquote, ih⟩

theorem decode_escaped (cs : List Char) : Quote.double.decode (escaped cs) = cs := by
  induction cs with
  | nil => rfl
  | cons c cs ih =>
    rw [escaped]
    split
    next hc =>
      have hescapes : Quote.double.escapes '\\' c = true := by
        simpa [Quote.escapes] using hc
      rw [Quote.decode, if_pos hescapes, ih]
    next hc =>
      have hslash := (not_or.mp hc).2
      cases hrest : escaped cs with
      | nil =>
        rw [hrest] at ih
        rw [← ih]
        rfl
      | cons d rest =>
        have hescapes : ¬Quote.double.escapes c d = true := by simp [Quote.escapes, hslash]
        rw [hrest] at ih
        rw [Quote.decode, if_neg hescapes, ih]

theorem newlines_escaped (cs : List Char) : newlines (escaped cs) = newlines cs := by
  induction cs with
  | nil => rfl
  | cons c cs ih =>
    simp only [newlines] at ih
    rw [escaped]
    split <;> simp [newlines, List.count_cons, ih]

def Word.Proper (w : Word) : Prop :=
  w.piece.Proper

theorem Word.proper_quoted (s : String) : (Word.quoted s).Proper :=
  encloses_escaped s.toList

theorem Word.token?_piece (source : Source) (line : Nat) (w : Word) :
    w.piece.token? source line = some (w.token source line) := by
  cases w with
  | bare s => simp [Word.piece, Piece.token?, Word.token]
  | quoted s => simp [Word.piece, Piece.token?, Word.token, decode_escaped]

theorem Word.newlines_chars (w : Word) : NodeLayers.newlines w.piece.chars = w.newlines := by
  cases w with
  | bare s => rfl
  | quoted s =>
    have hmark : NodeLayers.newlines [Quote.double.mark] = 0 := by decide
    have hchars : (Word.quoted s).piece.chars =
        [Quote.double.mark] ++ escaped s.toList ++ [Quote.double.mark] := rfl
    rw [hchars, newlines_append, newlines_append, hmark, newlines_escaped, Nat.add_zero,
      Nat.zero_add]
    rfl

theorem Word.endsBefore_blank (w : Word) {c : Char} (h : isBlank c = true) (cs : List Char) :
    w.piece.EndsBefore (c :: cs) := by
  cases w with
  | bare s =>
    intro d hd
    obtain rfl : c = d := by simpa using hd
    exact h
  | quoted s => trivial

theorem Line.readable_pieces {ws : Line} {ps : List Piece} (hw : ∀ w ∈ ws, w.Proper)
    (hp : Readable ps) : Readable (Line.pieces ws ++ ps) := by
  fun_induction Line.pieces ws with
  | case1 => exact ⟨isBlank_newline, trivial, hp⟩
  | case2 w =>
    exact ⟨hw w List.mem_cons_self, w.endsBefore_blank isBlank_newline _,
      isBlank_newline, trivial, hp⟩
  | case3 w v ws ih =>
    have hblank : isBlank ' ' = true := by decide
    exact ⟨hw w List.mem_cons_self, w.endsBefore_blank hblank _, hblank, trivial,
      ih fun u hu => hw u (List.mem_cons_of_mem w hu)⟩

theorem readable_lines {lines : List Line} (h : ∀ ws ∈ lines, ∀ w ∈ ws, w.Proper) :
    Readable (lines.flatMap Line.pieces) := by
  induction lines with
  | nil => trivial
  | cons ws lines ih =>
    rw [List.flatMap_cons]
    exact Line.readable_pieces (h ws List.mem_cons_self)
      (ih fun us hu => h us (List.mem_cons_of_mem ws hu))

theorem Line.tokensOf_pieces (source : Source) (n : Nat) (ws : Line) (ps : List Piece) :
    tokensOf source n (Line.pieces ws ++ ps) =
      ws.place source n ++ tokensOf source (n + ws.height) ps := by
  fun_induction Line.pieces ws generalizing n with
  | case1 => rfl
  | case2 w =>
    have hline : NodeLayers.newlines (Piece.blank '\n').chars = 1 := by decide
    simp only [List.cons_append, List.nil_append, tokensOf, Word.token?_piece,
      Word.newlines_chars, hline]
    simp [Line.place, Line.height, Line.newlines, Piece.token?, Nat.add_assoc]
  | case3 w v ws ih =>
    have hblank : NodeLayers.newlines (Piece.blank ' ').chars = 0 := by decide
    have hheight : n + Line.height (w :: v :: ws) = n + w.newlines + Line.height (v :: ws) := by
      simp [Line.height, Line.newlines, Nat.add_assoc]
    rw [List.cons_append, List.cons_append, tokensOf, tokensOf, Word.token?_piece,
      Word.newlines_chars, hblank, Nat.add_zero, ih, hheight]
    rfl

theorem tokensOf_lines (source : Source) (n : Nat) (lines : List Line) :
    tokensOf source n (lines.flatMap Line.pieces) = place source n lines := by
  induction lines generalizing n with
  | nil => rfl
  | cons ws lines ih => rw [List.flatMap_cons, Line.tokensOf_pieces, ih, place]

theorem tokenize_written {lines : List Line} (h : ∀ ws ∈ lines, ∀ w ∈ ws, w.Proper)
    (source : Source) : tokenize source (written lines) = .ok (place source 1 lines) := by
  rw [tokenize_eq_ok_iff, written, String.toList_ofList,
    Pieces.ofChars_flatMap (readable_lines h)]
  exact ⟨rfl, tokensOf_lines source 1 lines⟩

theorem height_append (ls ms : List Line) : height (ls ++ ms) = height ls + height ms := by
  simp [height]

theorem place_append (source : Source) (n : Nat) (ls ms : List Line) :
    place source n (ls ++ ms) = place source n ls ++ place source (n + height ls) ms := by
  induction ls generalizing n with
  | nil => rfl
  | cons l ls ih =>
    have hheight : n + height (l :: ls) = n + l.height + height ls := by
      simp [height, Nat.add_assoc]
    rw [List.cons_append, place, place, ih, hheight, List.append_assoc]

theorem Word.lastLine_token (source : Source) (n : Nat) (w : Word) :
    (w.token source n).lastLine = n + w.newlines := by
  cases w <;> rfl

theorem Word.sharesLine_token (source : Source) (n : Nat) (w v : Word) :
    (w.token source n).sharesLine (v.token source (n + w.newlines)) = true := by
  have hw : (w.token source n).source = source := by cases w <;> rfl
  have hv : (v.token source (n + w.newlines)).source = source := by cases v <;> rfl
  have hline : (v.token source (n + w.newlines)).line = n + w.newlines := by cases v <;> rfl
  rw [Token.sharesLine, hw, hv, hline, w.lastLine_token, Source.agrees_self]
  simp

theorem Line.oneLine_place (source : Source) (n : Nat) (ws : Line) :
    OneLine (ws.place source n) := by
  induction ws generalizing n with
  | nil => exact List.IsChain.nil
  | cons w ws ih =>
    cases ws with
    | nil => exact List.IsChain.singleton _
    | cons v ws => exact oneLine_cons_cons.mpr ⟨w.sharesLine_token source n v, ih _⟩

theorem Line.texts_place (source : Source) (n : Nat) (ws : Line) :
    (ws.place source n).map Token.text = ws.map Word.text := by
  induction ws generalizing n with
  | nil => rfl
  | cons w ws ih =>
    have htext : (w.token source n).text = w.text := by cases w <;> rfl
    rw [Line.place, List.map_cons, List.map_cons, htext, ih]

theorem Line.range_place {source : Source} {n : Nat} {ws : Line} {t : Token}
    (h : t ∈ ws.place source n) : n ≤ t.line ∧ t.lastLine < n + ws.height := by
  induction ws generalizing n with
  | nil => cases h
  | cons w ws ih =>
    have hheight : Line.height (w :: ws) = w.newlines + Line.height ws := by
      simp [Line.height, Line.newlines, Nat.add_assoc]
    rcases List.mem_cons.mp h with rfl | hm
    · have hline : (w.token source n).line = n := by cases w <;> rfl
      have hpos : 0 < Line.height ws := Nat.succ_pos _
      rw [w.lastLine_token, hline]
      omega
    · have := ih hm
      omega

theorem range_place {source : Source} {n : Nat} {lines : List Line} {t : Token}
    (h : t ∈ place source n lines) : n ≤ t.line ∧ t.lastLine < n + height lines := by
  induction lines generalizing n with
  | nil => cases h
  | cons l lines ih =>
    have hheight : height (l :: lines) = l.height + height lines := by simp [height]
    rcases List.mem_append.mp h with hl | hm
    · have := Line.range_place hl
      omega
    · have := ih hm
      omega

theorem endsLine_of_lt {ts rest : List Token} {m : Nat} (ht : ∀ t ∈ ts, t.lastLine < m)
    (hr : ∀ u ∈ rest.head?, m ≤ u.line) : EndsLine ts rest := by
  intro t hlast u hu
  have hlt := ht t (List.mem_of_getLast? hlast)
  have hle := hr u hu
  have hline : decide (u.line ≤ t.lastLine) = false := decide_eq_false (by omega)
  rw [Token.sharesLine, hline, Bool.and_false]

def placeGroups (source : Source) : Nat → List (List Line) → List (List Token)
  | _, [] => []
  | n, g :: gs => place source n g :: placeGroups source (n + height g) gs

theorem flatten_placeGroups (source : Source) (n : Nat) (gs : List (List Line)) :
    (placeGroups source n gs).flatten = place source n gs.flatten := by
  induction gs generalizing n with
  | nil => rfl
  | cons g gs ih => rw [placeGroups, List.flatten_cons, List.flatten_cons, place_append, ih]

theorem laid_placeGroups {source : Source} {n : Nat} {gs : List (List Line)} {rest : List Token}
    (h : ∀ u ∈ rest.head?, n + height gs.flatten ≤ u.line) :
    Laid (placeGroups source n gs) rest := by
  induction gs generalizing n with
  | nil => trivial
  | cons g gs ih =>
    have hheight : height (g :: gs).flatten = height g + height gs.flatten := by
      rw [List.flatten_cons, height_append]
    rw [hheight, ← Nat.add_assoc] at h
    refine ⟨endsLine_of_lt (fun t ht => (range_place ht).2) ?_, ih h⟩
    intro u hu
    rw [flatten_placeGroups, List.head?_append] at hu
    rcases Option.or_eq_some_iff.mp hu with hm | ⟨_, hr⟩
    · exact (range_place (List.mem_of_mem_head? hm)).1
    · have := h u hr
      omega

theorem Line.place_append (source : Source) (n : Nat) (ws vs : Line) :
    Line.place source n (ws ++ vs) =
      ws.place source n ++ vs.place source (n + ws.newlines) := by
  induction ws generalizing n with
  | nil => rfl
  | cons w ws ih =>
    have hnewlines : n + Line.newlines (w :: ws) = n + w.newlines + Line.newlines ws := by
      simp [Line.newlines, Nat.add_assoc]
    rw [List.cons_append, Line.place, Line.place, ih, hnewlines]
    rfl

def blockLines (header : Line) (body : List Line) : List Line :=
  (header ++ [.bare "\x7b"]) :: body ++ [[.bare "\x7d"]]

theorem height_header (header : Line) : Line.height (header ++ [.bare "\x7b"]) = header.height := by
  have hbrace : Word.newlines (.bare "\x7b") = 0 := by decide
  simp [Line.height, Line.newlines, hbrace]

def openAt (source : Source) (n : Nat) : Token :=
  ⟨source, n, "\x7b", false⟩

def closeAt (source : Source) (n : Nat) : Token :=
  ⟨source, n, "\x7d", false⟩

@[simp] theorem opens_openAt (source : Source) (n : Nat) : (openAt source n).opens = true := by
  simp [openAt, Token.opens]

@[simp] theorem closes_closeAt (source : Source) (n : Nat) :
    (closeAt source n).closes = true := by
  simp [closeAt, Token.closes]

theorem place_header (source : Source) (n : Nat) (header : Line) :
    Line.place source n (header ++ [.bare "\x7b"]) =
      header.place source n ++ [openAt source (n + header.newlines)] := by
  rw [Line.place_append]
  rfl

theorem place_blockLines (source : Source) (n : Nat) (header : Line) (body : List Line) :
    place source n (blockLines header body) =
      header.place source n ++ openAt source (n + header.newlines) ::
        (place source (n + header.height) body ++
          [closeAt source (n + header.height + height body)]) := by
  rw [blockLines, List.cons_append, place, height_header, place_header, place_append]
  simp [Line.place, place, Word.token, closeAt]

end NodeLayers
