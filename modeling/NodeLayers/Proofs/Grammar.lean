import NodeLayers.Proofs.Pieces

namespace NodeLayers

/-- The text that a body between quotes is written for. Between double quotes a backslash in front
of a mark or of another backslash only tells that this one stands for itself; anywhere else, but
never at the end, it is a character like the others. -/
inductive Quote.Writes : Quote → List Char → List Char → Prop
  | nil (q) : Writes q [] []
  | escaped {d body text} : d = '"' ∨ d = '\\' → Writes .double body text →
      Writes .double ('\\' :: d :: body) (d :: text)
  | plain {q c body text} : c ≠ q.mark →
      (q = .double → c = '\\' → ∃ d ∈ body.head?, d ≠ '"' ∧ d ≠ '\\') → Writes q body text →
      Writes q (c :: body) (c :: text)

/-- From this line on the characters are these pieces and then the `rest`, and the quoted pieces and
the words among them are these tokens. -/
inductive Lexed (source : Source) (rest : List Char) :
    Nat → List Char → List Piece → List Token → Prop
  | done (line) : Lexed source rest line rest [] []
  | blank {line c cs ps ts} : isBlank c = true → Lexed source rest (line + newlines [c]) cs ps ts →
      Lexed source rest line (c :: cs) (.blank c :: ps) ts
  | comment {line body cs ps ts} : '\n' ∉ body → (∀ c ∈ cs.head?, c = '\n') →
      Lexed source rest line cs ps ts →
      Lexed source rest line ('#' :: (body ++ cs)) (.comment body :: ps) ts
  | quoted {line q body text cs ps ts} : q.Writes body text →
      Lexed source rest (line + newlines body) cs ps ts →
      Lexed source rest line (q.mark :: (body ++ q.mark :: cs)) (.quoted q body :: ps)
        (⟨source, line, String.ofList text, true⟩ :: ts)
  | word {line c w cs ps ts} : isBlank c = false → c ∉ ['#', '"', '\x60'] →
      (∀ d ∈ w, isBlank d = false) → (∀ d ∈ cs.head?, isBlank d = true) →
      Lexed source rest line cs ps ts →
      Lexed source rest line (c :: (w ++ cs)) (.word (c :: w) :: ps)
        (⟨source, line, String.ofList (c :: w), false⟩ :: ts)

theorem Quote.escapes_iff {q : Quote} {c d : Char} :
    q.escapes c d = true ↔ q = .double ∧ c = '\\' ∧ (d = '"' ∨ d = '\\') := by
  rw [Quote.escapes, decide_eq_true_eq]

theorem Quote.Writes.encloses {q : Quote} {body text : List Char} (h : q.Writes body text) :
    q.Encloses body ∧ q.decode body = text := by
  induction h with
  | nil q => exact ⟨trivial, rfl⟩
  | @escaped d body text hd _ ih =>
    have hescapes : Quote.escapes .double '\\' d = true := Quote.escapes_iff.mpr ⟨rfl, rfl, hd⟩
    refine ⟨⟨by decide, ?_⟩, ?_⟩
    · rw [if_pos hescapes]
      exact ih.1
    · rw [Quote.decode, if_pos hescapes, ih.2]
  | @plain q c body text hc hplain _ ih =>
    cases body with
    | nil =>
      have hescapes : q.escapes c q.mark = false := by
        rw [Bool.eq_false_iff]
        intro he
        obtain ⟨hq, hback, _⟩ := Quote.escapes_iff.mp he
        obtain ⟨d, hd, _⟩ := hplain hq hback
        cases hd
      exact ⟨⟨hc, hescapes⟩, congrArg (c :: ·) ih.2⟩
    | cons d rest =>
      have hescapes : ¬q.escapes c d = true := by
        intro he
        obtain ⟨hq, hback, hmark⟩ := Quote.escapes_iff.mp he
        obtain ⟨d', hd, hquote, hslash⟩ := hplain hq hback
        obtain rfl := Option.some.inj hd
        exact hmark.elim hquote hslash
      refine ⟨⟨hc, ?_⟩, ?_⟩
      · rw [if_neg hescapes]
        exact ih.1
      · rw [Quote.decode, if_neg hescapes, ih.2]

theorem Quote.Encloses.writes {q : Quote} {body : List Char} (h : q.Encloses body) :
    q.Writes body (q.decode body) := by
  fun_induction Quote.decode q body with
  | case1 c d rest he ih =>
    obtain ⟨rfl, rfl, hd⟩ := Quote.escapes_iff.mp he
    have hrest := h.2
    rw [if_pos he] at hrest
    exact .escaped hd (ih hrest)
  | case2 c d rest he ih =>
    have hrest := h.2
    rw [if_neg he] at hrest
    refine .plain h.1 (fun hq hback => ⟨d, rfl, ?_⟩) (ih hrest)
    exact not_or.mp fun hd => he (Quote.escapes_iff.mpr ⟨hq, hback, hd⟩)
  | case3 cs hshort =>
    cases cs with
    | nil => exact .nil q
    | cons c cs =>
      cases cs with
      | cons d rest => exact absurd rfl (hshort c d rest)
      | nil =>
        obtain ⟨hc, he⟩ := h
        refine .plain hc (fun hq hback => ?_) (.nil q)
        have hescapes : q.escapes c q.mark = true :=
          Quote.escapes_iff.mpr ⟨hq, hback, by rw [hq]; exact Or.inl rfl⟩
        rw [he] at hescapes
        cases hescapes

theorem Quote.ofMark?_eq_none_iff {c : Char} : Quote.ofMark? c = none ↔ c ≠ '"' ∧ c ≠ '\x60' := by
  unfold Quote.ofMark?
  split
  next hc => exact iff_of_false nofun fun h => h.1 hc
  next hc =>
    split
    next hb => exact iff_of_false nofun fun h => h.2 hb
    next hb => exact iff_of_true rfl ⟨hc, hb⟩

theorem newlines_chars_comment {body : List Char} (h : '\n' ∉ body) :
    newlines (Piece.chars (.comment body)) = 0 :=
  List.count_eq_zero.mpr (by simp [Piece.chars, h])

theorem newlines_chars_quoted (q : Quote) (body : List Char) :
    newlines (Piece.chars (.quoted q body)) = newlines body := by
  have hmark : newlines [q.mark] = 0 := by cases q <;> rfl
  have hchars : Piece.chars (.quoted q body) = [q.mark] ++ body ++ [q.mark] := rfl
  rw [hchars, newlines_append, newlines_append, hmark, Nat.zero_add, Nat.add_zero]

theorem newlines_chars_word {w : List Char} (h : ∀ d ∈ w, isBlank d = false) :
    newlines (Piece.chars (.word w)) = 0 := by
  refine List.count_eq_zero.mpr fun hmem => ?_
  have hblank := h _ hmem
  rw [isBlank_newline] at hblank
  cases hblank

section lexed

variable {source : Source} {rest cs : List Char} {line : Nat} {ps : List Piece}
  {ts : List Token}

theorem Lexed.readable (h : Lexed source rest line cs ps ts) :
    cs = ps.flatMap Piece.chars ++ rest ∧ ReadableBefore ps rest ∧
      ts = tokensOf source line ps := by
  induction h with
  | done line => exact ⟨rfl, trivial, rfl⟩
  | blank hc _ ih =>
    obtain ⟨rfl, hps, rfl⟩ := ih
    exact ⟨rfl, ⟨hc, trivial, hps⟩, rfl⟩
  | @comment line body cs ps ts hbody hend _ ih =>
    obtain ⟨rfl, hps, rfl⟩ := ih
    refine ⟨by simp [Piece.chars], ⟨hbody, hend, hps⟩, ?_⟩
    rw [tokensOf, newlines_chars_comment hbody]
    rfl
  | @quoted line q body text cs ps ts hbody _ ih =>
    obtain ⟨rfl, hps, rfl⟩ := ih
    obtain ⟨hencloses, rfl⟩ := hbody.encloses
    refine ⟨by simp [Piece.chars], ⟨hencloses, trivial, hps⟩, ?_⟩
    rw [tokensOf, newlines_chars_quoted]
    rfl
  | @word line c w cs ps ts hb hc hw hend _ ih =>
    obtain ⟨rfl, hps, rfl⟩ := ih
    obtain ⟨hhash, hquote, hback⟩ : c ≠ '#' ∧ c ≠ '"' ∧ c ≠ '\x60' := by simpa using hc
    refine ⟨by simp [Piece.chars],
      ⟨⟨hb, hhash, Quote.ofMark?_eq_none_iff.mpr ⟨hquote, hback⟩, hw⟩, hend, hps⟩, ?_⟩
    rw [tokensOf, newlines_chars_word (List.forall_mem_cons.mpr ⟨hb, hw⟩)]
    rfl

theorem ReadableBefore.lexed (h : ReadableBefore ps rest) (source : Source) (line : Nat) :
    Lexed source rest line (ps.flatMap Piece.chars ++ rest) ps (tokensOf source line ps) := by
  induction ps generalizing line with
  | nil => exact .done line
  | cons p ps ih =>
    obtain ⟨hp, he, hps⟩ := h
    have htail := ih hps (line + newlines p.chars)
    rw [List.flatMap_cons, List.append_assoc, tokensOf]
    cases p with
    | blank c => exact .blank hp htail
    | comment body =>
      rw [newlines_chars_comment hp] at htail ⊢
      exact .comment hp he htail
    | quoted q body =>
      have hchars : Piece.chars (.quoted q body) ++ (ps.flatMap Piece.chars ++ rest) =
          q.mark :: (body ++ q.mark :: (ps.flatMap Piece.chars ++ rest)) := by simp [Piece.chars]
      rw [newlines_chars_quoted] at htail ⊢
      rw [hchars]
      exact .quoted (Quote.Encloses.writes hp) htail
    | word w =>
      cases w with
      | nil => exact hp.elim
      | cons c w =>
        obtain ⟨hb, hhash, hmark, hw⟩ := hp
        obtain ⟨hquote, hback⟩ := Quote.ofMark?_eq_none_iff.mp hmark
        rw [newlines_chars_word (List.forall_mem_cons.mpr ⟨hb, hw⟩)] at htail ⊢
        exact .word hb (by simp [hhash, hquote, hback]) hw he htail

/-- Pieces that are all of the text are those that the reader finds. -/
theorem Lexed.eq_pieces (h : Lexed source [] line cs ps ts) : Pieces.ofChars cs = ⟨ps, none⟩ := by
  obtain ⟨rfl, hps, _⟩ := h.readable
  rw [List.append_nil]
  exact Pieces.ofChars_flatMap (readableBefore_nil.mp hps)

theorem Pieces.ofChars_of_error {c : Char} {q : Quote} (h : Piece.next c cs = .error q) :
    Pieces.ofChars (c :: cs) = ⟨[], some q⟩ := by
  rw [Pieces.ofChars.eq_def]
  dsimp only
  split
  next p hp => cases h.symm.trans hp; rfl
  next p a hp => cases h.symm.trans hp

/-- Behind these characters no mark closes the quote. -/
def Quote.NeverCloses (q : Quote) (cs : List Char) : Prop :=
  ∀ body text after, cs = body ++ q.mark :: after → ¬q.Writes body text

theorem Quote.neverCloses_of_opensForever {q : Quote} {cs : List Char} (h : q.OpensForever cs) :
    ∃ body, cs = q.mark :: body ∧ q.NeverCloses body := by
  obtain ⟨body, rfl, hforever⟩ := h
  exact ⟨body, rfl, fun inner text after hbody hwrites =>
    hforever inner after hbody hwrites.encloses.1⟩

theorem Quote.NeverCloses.next_mark {q : Quote} (h : q.NeverCloses cs) :
    Piece.next q.mark cs = .error q := by
  have hnone : q.close? cs = none := by
    cases hclose : q.close? cs with
    | none => rfl
    | some found =>
      obtain ⟨body, after⟩ := found
      have hwrites := (Quote.encloses_of_close? hclose).writes
      exact absurd hwrites (h body _ after (Quote.close?_eq_some hclose))
  rw [Piece.next, if_neg (by simp [q.isBlank_mark]), if_neg q.mark_ne_hash, q.ofMark?_mark]
  simp only [hnone]

end lexed

/-- A text is read just when it is pieces up to its end, in the only way it can be, and then as the
tokens among them. It is refused just when pieces lead up to a quote that is never closed, on the
line of its mark. -/
theorem tokenize_lexed (source : Source) (text : String) :
    (∀ ts, tokenize source text = .ok ts ↔ ∃ ps, Lexed source [] 1 text.toList ps ts) ∧
      (∀ ps qs ts us, Lexed source [] 1 text.toList ps ts → Lexed source [] 1 text.toList qs us →
        ps = qs) ∧
      ∀ e, tokenize source text = .error e ↔
        ∃ ps ts before q rest, Lexed source (q.mark :: rest) 1 text.toList ps ts ∧
          q.NeverCloses rest ∧ text.toList = before ++ q.mark :: rest ∧
          e = ⟨⟨source, 1 + newlines before⟩, .unterminatedQuote q⟩ := by
  refine ⟨fun ts => ⟨fun h => ?_, ?_⟩, fun ps qs ts us hp hq => ?_, fun e => ⟨fun h => ?_, ?_⟩⟩
  · obtain ⟨hclosed, rfl⟩ := tokenize_eq_ok_iff.mp h
    have hlexed := (readableBefore_nil.mpr (Pieces.readable_ofChars hclosed)).lexed source 1
    rw [List.append_nil, Pieces.chars_ofChars hclosed] at hlexed
    exact ⟨_, hlexed⟩
  · rintro ⟨ps, h⟩
    rw [tokenize_eq_ok_iff, h.eq_pieces]
    exact ⟨rfl, h.readable.2.2.symm⟩
  · have hsame := hp.eq_pieces.symm.trans hq.eq_pieces
    exact congrArg Pieces.pieces hsame
  · obtain ⟨rest, htext, hreadable, _, hquote⟩ := Pieces.readableBefore_ofChars text.toList
    unfold tokenize at h
    cases hunclosed : (Pieces.ofChars text.toList).unclosed with
    | none =>
      simp only [hunclosed] at h
      cases h
    | some q =>
      obtain ⟨body, rfl, hforever⟩ := Quote.neverCloses_of_opensForever (hquote q hunclosed)
      have hlexed := hreadable.lexed source 1
      rw [← htext] at hlexed
      simp only [hunclosed, Except.error.injEq] at h
      exact ⟨_, _, _, q, body, hlexed, hforever, htext, h.symm⟩
  · rintro ⟨ps, ts, before, q, rest, h, hforever, hbefore, rfl⟩
    obtain ⟨htext, hreadable, _⟩ := h.readable
    obtain rfl := List.append_cancel_right (htext.symm.trans hbefore)
    -- the pieces in front of the mark are read whatever follows them, and at the mark none starts
    rw [tokenize, htext, Pieces.ofChars_append hreadable,
      Pieces.ofChars_of_error hforever.next_mark]
    simp

/-- Inside a word neither a hash nor a quote starts anything. -/
example : (tokenize none "a#b c\"d\n# e").toOption =
    some [⟨none, 1, "a#b", false⟩, ⟨none, 1, "c\"d", false⟩] := by
  decide +kernel

end NodeLayers
