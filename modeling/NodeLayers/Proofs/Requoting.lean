import NodeLayers.Proofs.LikeDocuments
import NodeLayers.Proofs.WrittenForm

namespace NodeLayers

/-- A piece that may stand right in front of a word may stand in front of anything. -/
theorem Piece.EndsBefore.of_nonblank {p : Piece} {cs rest : List Char} {c : Char}
    (h : p.EndsBefore (cs ++ c :: rest)) (hc : isBlank c = false) (more : List Char) :
    p.EndsBefore (cs ++ more) := by
  cases cs with
  | nil =>
    cases p with
    | blank => trivial
    | quoted => trivial
    | comment body =>
      have hnewline : c = '\n' := h c rfl
      rw [hnewline, isBlank_newline] at hc
      cases hc
    | word w =>
      have hblank : isBlank c = true := h c rfl
      rw [hblank] at hc
      cases hc
  | cons d cs =>
    cases p with
    | blank => trivial
    | quoted => trivial
    | comment body => exact h
    | word w => exact h

theorem ReadableBefore.of_nonblank {ps : List Piece} {rest : List Char} {c : Char}
    (h : ReadableBefore ps (c :: rest)) (hc : isBlank c = false) (more : List Char) :
    ReadableBefore ps more := by
  induction ps with
  | nil => trivial
  | cons p ps ih =>
    obtain ⟨hp, he, hps⟩ := h
    exact ⟨hp, he.of_nonblank hc more, ih hps⟩

/-- A word in double quotes. -/
def Piece.quotedWord (w : List Char) : Piece :=
  .quoted .double (escaped w)

/-- A word in quotes ends and lets the text in front of it end where the bare word did. -/
theorem ReadableBefore.requote {before after : List Piece} {w rest : List Char}
    (h : ReadableBefore (before ++ .word w :: after) rest) :
    ReadableBefore (before ++ .quotedWord w :: after) rest := by
  rw [readableBefore_append] at h ⊢
  obtain ⟨hbefore, hword, hends, hafter⟩ := h
  cases w with
  | nil => exact hword.elim
  | cons c cs =>
    have hc : isBlank c = false := hword.1
    exact ⟨hbefore.of_nonblank hc _, encloses_escaped _, trivial, hafter⟩

/-- The same word in the same place. Quotes do not count, unless they hide a brace. -/
structure Token.SameWord (t u : Token) : Prop where
  source : t.source = u.source
  line : t.line = u.line
  text : t.text = u.text
  opens : t.opens = u.opens
  closes : t.closes = u.closes

theorem Token.SameWord.refl (t : Token) : t.SameWord t :=
  ⟨rfl, rfl, rfl, rfl, rfl⟩

theorem alike_sameWord : Alike Token.SameWord Eq where
  text h := h.text
  opens h := h.opens
  closes h := h.closes
  sharesLine h h' := by
    simp only [Token.sharesLine, Token.lastLine, h.source, h.line, h.text, h'.source, h'.line]
    rfl
  location h := by rw [Token.location, Token.location, h.source, h.line]
  nowhere := rfl

theorem Agree.eq {α : Type} {x y : Except ParseError α} (h : Agree Eq Eq x y) : x = y := by
  cases h with
  | ok hv => rw [hv]
  | @error e e' he =>
    obtain ⟨location, fault⟩ := e
    obtain ⟨rfl, rfl⟩ := he
    rfl

theorem ofList_beq_eq_false {w : List Char} {s : String} (h : w ≠ s.toList) :
    (String.ofList w == s) = false := by
  refine beq_eq_false_iff_ne.mpr fun he => h ?_
  rw [← he, String.toList_ofList]

section word

variable {w : List Char} (hopen : w ≠ ['\x7b']) (hclose : w ≠ ['\x7d'])
include hopen hclose

theorem sameWord_quotedWord (source : Source) (line : Nat) :
    Option.Rel Token.SameWord ((Piece.quotedWord w).token? source line)
      ((Piece.word w).token? source line) := by
  have hopens : (String.ofList w == "\x7b") = false := ofList_beq_eq_false hopen
  have hcloses : (String.ofList w == "\x7d") = false := ofList_beq_eq_false hclose
  refine .some ⟨rfl, rfl, ?_, ?_, ?_⟩
  · rw [decode_escaped]
  · rw [Token.opens, Token.opens, hopens]
    rfl
  · rw [Token.closes, Token.closes, hcloses]
    rfl

omit hopen hclose in
theorem newlines_quotedWord : newlines (Piece.quotedWord w).chars = newlines w := by
  have hchars : (Piece.quotedWord w).chars = ['"'] ++ escaped w ++ ['"'] := rfl
  have hmark : newlines ['"'] = 0 := by decide
  rw [hchars, newlines_append, newlines_append, newlines_escaped, hmark]
  omega

theorem sameWord_requoted (source : Source) (before after : List Piece) :
    List.Forall₂ Token.SameWord (tokensOf source 1 (before ++ .quotedWord w :: after))
      (tokensOf source 1 (before ++ .word w :: after)) := by
  have hsame : ∀ ts, List.Forall₂ Token.SameWord ts ts := fun ts =>
    List.forall₂_same.mpr fun t _ => Token.SameWord.refl t
  rw [tokensOf_append, tokensOf_append, tokensOf, tokensOf, newlines_quotedWord]
  refine List.rel_append (hsame _) (List.rel_append (forall₂_toList ?_) (hsame _))
  exact sameWord_quotedWord hopen hclose source _

end word

/-- A token without quotes is a word of the text. -/
theorem exists_word_of_tokenize {source : Source} {text : String} {ts us : List Token} {t : Token}
    (h : tokenize source text = .ok (ts ++ t :: us)) (hq : t.quoted = false) :
    ∃ before after,
      (Pieces.ofChars text.toList).pieces = before ++ .word t.text.toList :: after ∧
        tokensOf source 1 before = ts := by
  obtain ⟨before, p, after, hpieces, hts, hp⟩ := exists_of_tokensOf (tokenize_eq_ok_iff.mp h).2
  cases p with
  | blank => cases hp
  | comment => cases hp
  | quoted => cases hp; cases hq
  | word w =>
    cases hp
    exact ⟨before, after, by simpa using hpieces, hts⟩

/-- A text in which a word stands in double quotes. -/
def requoted (before w rest : List Char) : String :=
  String.ofList (before ++ ('"' :: escaped w ++ ['"']) ++ rest)

/-- The text with a word in quotes has the same parts around it, and ends as it did. -/
theorem ofChars_requoted {text : String} {before after : List Piece} {w : List Char}
    (h : (Pieces.ofChars text.toList).pieces = before ++ .word w :: after) :
    ∃ rest, text.toList = before.flatMap Piece.chars ++ w ++ rest ∧
      Pieces.ofChars (requoted (before.flatMap Piece.chars) w rest).toList =
        ⟨before ++ .quotedWord w :: after, (Pieces.ofChars text.toList).unclosed⟩ := by
  obtain ⟨rest, htext, hreadable, _, _⟩ := Pieces.readableBefore_ofChars text.toList
  have hwhole := Pieces.ofChars_append hreadable
  rw [← htext] at hwhole
  rw [h] at htext hreadable
  have hquoted := Pieces.ofChars_append hreadable.requote
  -- nothing behind the pieces of the text is read as a piece
  have hnone : (Pieces.ofChars rest).pieces = [] :=
    List.self_eq_append_right.mp (congrArg Pieces.pieces hwhole)
  have hend := congrArg Pieces.unclosed hwhole
  refine ⟨after.flatMap Piece.chars ++ rest, by simpa [Piece.chars] using htext, ?_⟩
  have hchars :
      (requoted (before.flatMap Piece.chars) w (after.flatMap Piece.chars ++ rest)).toList =
        (before ++ .quotedWord w :: after).flatMap Piece.chars ++ rest := by
    simp [requoted, Piece.quotedWord, Piece.chars, Quote.mark]
  rw [hchars, hquoted, hnone, List.append_nil, hend]

namespace Configuration

theorem ofText_eq_of_requoted {text text' : String} {before after : List Piece} {w : List Char}
    {unclosed : Option Quote} (hopen : w ≠ ['\x7b']) (hclose : w ≠ ['\x7d'])
    (h : Pieces.ofChars text.toList = ⟨before ++ .word w :: after, unclosed⟩)
    (h' : Pieces.ofChars text'.toList = ⟨before ++ .quotedWord w :: after, unclosed⟩)
    (source : Source) : ofText source text' = ofText source text := by
  cases unclosed with
  | none =>
    have ht : tokenize source text = .ok _ :=
      tokenize_eq_ok_iff.mpr ⟨congrArg Pieces.unclosed h, rfl⟩
    have ht' : tokenize source text' = .ok _ :=
      tokenize_eq_ok_iff.mpr ⟨congrArg Pieces.unclosed h', rfl⟩
    rw [h] at ht
    rw [h'] at ht'
    exact (agree_ofText alike_sameWord ht' ht (sameWord_requoted hopen hclose source _ _)).eq
  | some q =>
    have hlines : newlines ((before ++ .quotedWord w :: after).flatMap Piece.chars) =
        newlines ((before ++ .word w :: after).flatMap Piece.chars) := by
      simp only [List.flatMap_append, List.flatMap_cons, newlines_append, newlines_quotedWord]
      rfl
    rw [ofText, ofText, tokenize, tokenize, h, h']
    simp only [hlines]

/-- An unquoted token is a word of the text, and such a word may as well stand in double quotes,
unless it is a brace: the same is read, or the same error found in the same place. -/
theorem ofText_requoted (source : Source) (text : String) :
    (∀ ts t us, tokenize source text = .ok (ts ++ t :: us) → t.quoted = false →
      ∃ before after, (Pieces.ofChars text.toList).pieces =
          before ++ .word t.text.toList :: after ∧ tokensOf source 1 before = ts) ∧
      ∀ before w after, (Pieces.ofChars text.toList).pieces = before ++ .word w :: after →
        w ≠ ['\x7b'] → w ≠ ['\x7d'] →
        ∃ rest, text.toList = before.flatMap Piece.chars ++ w ++ rest ∧
          (Pieces.ofChars (requoted (before.flatMap Piece.chars) w rest).toList).pieces =
            before ++ .quoted .double (escaped w) :: after ∧
          ofText source (requoted (before.flatMap Piece.chars) w rest) = ofText source text := by
  refine ⟨fun ts t us h hq => exists_word_of_tokenize h hq, ?_⟩
  intro before w after h hopen hclose
  obtain ⟨rest, htext, hquoted⟩ := ofChars_requoted h
  refine ⟨rest, htext, congrArg Pieces.pieces hquoted, ?_⟩
  exact ofText_eq_of_requoted hopen hclose (by rw [← h]) hquoted source

/-- A word behind a quoted text, without a blank between them. -/
def crampedText : String :=
  "a \"b\"c#\" \x7b\n  tailscale edge\n\x7d"

theorem ofText_cramped :
    ofText none crampedText = .ok ⟨∅, [⟨"edge", ∅⟩]⟩ ∧
      ∃ rest, crampedText.toList = "a \"b\"".toList ++ ['c', '#', '"'] ++ rest ∧
        ofText none (requoted "a \"b\"".toList ['c', '#', '"'] rest) = .ok ⟨∅, [⟨"edge", ∅⟩]⟩ := by
  have h : ofText none crampedText = .ok ⟨∅, [⟨"edge", ∅⟩]⟩ := by decide +kernel
  have hpieces : (Pieces.ofChars crampedText.toList).pieces =
      [.word ['a'], .blank ' ', .quoted .double ['b']] ++
        .word ['c', '#', '"'] :: (Pieces.ofChars crampedText.toList).pieces.drop 4 := by
    decide +kernel
  have hwords := (ofText_requoted none crampedText).2
  obtain ⟨rest, htext, _, hsame⟩ := hwords _ _ _ hpieces (by decide) (by decide)
  exact ⟨h, rest, htext, hsame.trans h⟩

end Configuration

end NodeLayers
