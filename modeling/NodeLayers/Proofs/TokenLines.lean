import NodeLayers.Proofs.Grammar
import NodeLayers.Proofs.Moves

namespace NodeLayers

/-- The text is these pieces, each of which ends where the next one starts. -/
structure ReadAs (text : String) (ps : List Piece) : Prop where
  chars : ps.flatMap Piece.chars = text.toList
  readable : Readable ps

/-- A token is a word of the text, or what a text between quotes is written for. -/
def Piece.Spells : Piece → Token → Prop
  | .word w, t => t.quoted = false ∧ t.text.toList = w
  | .quoted q body, t => t.quoted = true ∧ q.Writes body t.text.toList
  | .blank _, _ | .comment _, _ => False

def Piece.IsGap : Piece → Prop
  | .blank _ | .comment _ => True
  | .quoted _ _ | .word _ => False

/-- The token's lines are those of the first and of the last character that it is written with. -/
structure Token.OnLines (t : Token) (before written : List Char) : Prop where
  first : t.line = 1 + newlines before
  last : t.line + newlines t.text.toList = 1 + newlines (before ++ written.dropLast)

/-- Between two tokens a line ends just where the text between them has a line end, and the cursor
sees the same. -/
structure LinesBetween (t u : Token) (gap : List Char) : Prop where
  apart : t.sharesLine u = false ↔ '\n' ∈ gap
  nextArg : ∀ passed ahead n, Cursor.nextArg? ⟨t :: passed, u :: ahead, n⟩ =
    if '\n' ∈ gap ∨ u.opens = true then none else some ⟨u :: t :: passed, ahead, n⟩
  opensBlock : ∀ passed ahead n, Cursor.opensBlock ⟨t :: passed, u :: ahead, n⟩ = true ↔
    u.opens = true ∧ '\n' ∉ gap

section piece

variable {source : Source} {line : Nat} {p : Piece} {ps : List Piece} {t u : Token}

theorem ReadAs.ofChars_eq {text : String} (h : ReadAs text ps) :
    Pieces.ofChars text.toList = ⟨ps, none⟩ := by
  rw [← h.chars]
  exact Pieces.ofChars_flatMap h.readable

theorem readAs_ofChars {text : String} (h : (Pieces.ofChars text.toList).unclosed = none) :
    ReadAs text (Pieces.ofChars text.toList).pieces :=
  ⟨Pieces.chars_ofChars h, Pieces.readable_ofChars h⟩

theorem proper_of_readable {front back : List Piece} (h : Readable (front ++ p :: back)) :
    p.Proper := by
  rw [← readableBefore_nil, readableBefore_append] at h
  exact h.2.1

theorem Piece.spells_of_token? (hp : p.Proper) (h : p.token? source line = some t) :
    p.Spells t := by
  cases p with
  | blank => cases h
  | comment => cases h
  | word w => cases h; exact ⟨rfl, String.toList_ofList⟩
  | quoted q body =>
    cases h
    refine ⟨rfl, ?_⟩
    rw [String.toList_ofList]
    exact Quote.Encloses.writes hp

theorem Piece.isGap_of_token? (h : p.token? source line = none) : p.IsGap := by
  cases p with
  | blank => trivial
  | comment => trivial
  | word => cases h
  | quoted => cases h

theorem isGap_of_tokensOf (h : tokensOf source line ps = []) : ∀ p ∈ ps, p.IsGap := by
  induction ps generalizing line with
  | nil => nofun
  | cons p ps ih =>
    obtain ⟨hp, hps⟩ := List.append_eq_nil_iff.mp h
    have hgap : p.IsGap := Piece.isGap_of_token? (Option.toList_eq_nil_iff.mp hp)
    exact List.forall_mem_cons.mpr ⟨hgap, ih hps⟩

theorem newlines_dropLast_of_not_mem {cs : List Char} (h : newlines cs = 0) :
    newlines cs.dropLast = 0 := by
  have hle := (List.dropLast_sublist cs).count_le '\n'
  unfold newlines at h ⊢
  omega

/-- Neither a word nor a closing mark ends a line. -/
theorem Piece.newlines_of_token? (hp : p.Proper) (h : p.token? source line = some t) :
    newlines t.text.toList = newlines p.chars ∧ newlines p.chars.dropLast = newlines p.chars := by
  cases p with
  | blank => cases h
  | comment => cases h
  | word w =>
    cases h
    cases w with
    | nil => exact hp.elim
    | cons c w =>
      obtain ⟨hb, _, _, hw⟩ := hp
      have hzero := newlines_chars_word (List.forall_mem_cons.mpr ⟨hb, hw⟩)
      rw [newlines_dropLast_of_not_mem hzero, hzero, String.toList_ofList]
      exact ⟨hzero, rfl⟩
  | quoted q body =>
    cases h
    have hchars : (Piece.quoted q body).chars.dropLast = q.mark :: body := List.dropLast_concat
    have hmark : newlines (q.mark :: body) = newlines body := by
      cases q <;> simp [newlines, Quote.mark]
    rw [hchars, hmark, newlines_chars_quoted, String.toList_ofList, newlines_decode]
    exact ⟨rfl, rfl⟩

theorem Piece.lastLine_of_token? (hp : p.Proper) (h : p.token? source line = some t) :
    t.lastLine = line + newlines p.chars := by
  rw [Token.lastLine, (Piece.newlines_of_token? hp h).1, (Piece.line_of_token? h).1]

theorem Piece.onLines_of_token? {before : List Char} (hp : p.Proper)
    (h : p.token? source (1 + newlines before) = some t) : t.OnLines before p.chars := by
  obtain ⟨htext, hdrop⟩ := Piece.newlines_of_token? hp h
  have hline := (Piece.line_of_token? h).1
  refine ⟨hline, ?_⟩
  rw [hline, htext, newlines_append, hdrop, Nat.add_assoc]

theorem Piece.source_of_token? (h : p.token? source line = some t) : t.source = source := by
  cases p <;> cases h <;> rfl

theorem linesBetween_of_lines {gap : List Char} (hsource : t.source = u.source)
    (hline : u.line = t.lastLine + newlines gap) : LinesBetween t u gap := by
  have hshares : t.sharesLine u = true ↔ '\n' ∉ gap := by
    rw [Token.sharesLine, hsource, Source.agrees_self, Bool.true_and, decide_eq_true_eq, hline,
      ← List.count_eq_zero]
    unfold newlines
    omega
  have hapart : t.sharesLine u = false ↔ '\n' ∈ gap := by
    rw [← Bool.not_eq_true, hshares, not_not]
  refine ⟨hapart, fun passed ahead n => ?_, fun passed ahead n => ?_⟩
  · cases ho : u.opens with
    | true => simp [Cursor.nextArg?_of_opens ho]
    | false =>
      by_cases hgap : '\n' ∈ gap
      · simp [Cursor.nextArg?_of_apart (hapart.mpr hgap), hgap]
      · simp [Cursor.nextArg?_of_sharesLine (hshares.mpr hgap) ho, hgap]
  · rw [Cursor.opensBlock_cons, Bool.and_eq_true, hshares]

/-- The pieces around one of the tokens. -/
theorem tokensOf_split {us vs : List Token} (h : tokensOf source line ps = us ++ t :: vs) :
    ∃ front p back, ps = front ++ p :: back ∧ tokensOf source line front = us ∧
      p.token? source (line + newlines (front.flatMap Piece.chars)) = some t ∧
      tokensOf source (line + newlines (front.flatMap Piece.chars) + newlines p.chars) back =
        vs := by
  obtain ⟨front, p, back, rfl, hfront, hp⟩ := exists_of_tokensOf h
  rw [tokensOf_append, hfront, tokensOf, hp] at h
  have hback := List.append_cancel_left h
  exact ⟨front, p, back, rfl, hfront, hp, List.tail_eq_of_cons_eq hback⟩

end piece

/-- A token's line is that of its first character, and with the line ends of its text it comes to
the line of its last one. Two tokens that follow each other share a line just when no line ends in
the blanks and comments between them, and so do the arguments and the opening brace of a line. -/
theorem tokenize_lines {source : Source} {text : String} {ts : List Token}
    (h : tokenize source text = .ok ts) :
    ∃ ps, ReadAs text ps ∧ (∀ qs, ReadAs text qs → qs = ps) ∧
      ∀ us t vs, ts = us ++ t :: vs →
        ∃ front p back, ps = front ++ p :: back ∧ tokensOf source 1 front = us ∧ p.Spells t ∧
          t.OnLines (front.flatMap Piece.chars) p.chars ∧
          ∀ u ws, vs = u :: ws →
            ∃ gap q rest, back = gap ++ q :: rest ∧ (∀ g ∈ gap, g.IsGap) ∧ q.Spells u ∧
              LinesBetween t u (gap.flatMap Piece.chars) := by
  obtain ⟨hclosed, hts⟩ := tokenize_eq_ok_iff.mp h
  have hread := readAs_ofChars hclosed
  refine ⟨_, hread, fun qs hqs => ?_, fun us t vs hsplit => ?_⟩
  · rw [hqs.ofChars_eq]
  obtain ⟨front, p, back, hps, hfront, hp, hback⟩ := tokensOf_split (hts.trans hsplit)
  have hreadable := hread.readable
  rw [hps] at hreadable
  have hproper := proper_of_readable hreadable
  refine ⟨front, p, back, hps, hfront, Piece.spells_of_token? hproper hp,
    Piece.onLines_of_token? hproper hp, ?_⟩
  rintro u ws rfl
  obtain ⟨gap, q, rest, rfl, hgap, hq, _⟩ := tokensOf_split (hback.trans (List.nil_append _).symm)
  rw [← List.cons_append, ← List.append_assoc] at hreadable
  have hproper' := proper_of_readable hreadable
  refine ⟨gap, q, rest, rfl, isGap_of_tokensOf hgap, Piece.spells_of_token? hproper' hq, ?_⟩
  apply linesBetween_of_lines
  · rw [Piece.source_of_token? hp, Piece.source_of_token? hq]
  · rw [(Piece.line_of_token? hq).1, Piece.lastLine_of_token? hproper hp]

/-- A quoted text over two lines, a brace on the second of them, and a comment behind it. -/
def bracedOverLines : String :=
  "a \"b\\\"\n\" \x7b # c \"\nd"

theorem lines_bracedOverLines :
    tokenize none bracedOverLines = .ok [⟨none, 1, "a", false⟩, ⟨none, 1, "b\"\n", true⟩,
        ⟨none, 2, "\x7b", false⟩, ⟨none, 3, "d", false⟩] ∧
      ∃ gap, '\n' ∉ gap ∧ LinesBetween ⟨none, 1, "b\"\n", true⟩ ⟨none, 2, "\x7b", false⟩ gap := by
  have h : tokenize none bracedOverLines = .ok [⟨none, 1, "a", false⟩, ⟨none, 1, "b\"\n", true⟩,
      ⟨none, 2, "\x7b", false⟩, ⟨none, 3, "d", false⟩] := by decide +kernel
  obtain ⟨_, _, _, hlines⟩ := tokenize_lines h
  obtain ⟨_, _, _, _, _, _, _, hnext⟩ :=
    hlines [⟨none, 1, "a", false⟩] ⟨none, 1, "b\"\n", true⟩ _ rfl
  obtain ⟨gap, _, _, _, _, _, hgap⟩ := hnext ⟨none, 2, "\x7b", false⟩ _ rfl
  refine ⟨h, _, fun hend => ?_, hgap⟩
  have hapart := hgap.apart.mpr hend
  revert hapart
  decide

end NodeLayers
