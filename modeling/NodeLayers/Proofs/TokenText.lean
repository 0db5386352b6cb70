import NodeLayers.Proofs.TokenLines
import NodeLayers.Proofs.WrittenForm

namespace NodeLayers

/-- Characters that are read as a token without quotes. -/
structure IsWord (cs : List Char) : Prop where
  nonempty : cs ≠ []
  solid : ∀ c ∈ cs, isBlank c = false
  start : ∀ c ∈ cs.head?, c ∉ ['#', '"', '\x60']

/-- From this line on each token starts no earlier than the one in front of it has ended. -/
def InOrder : Nat → List Token → Prop
  | _, [] => True
  | line, t :: ts => line ≤ t.line ∧ InOrder t.lastLine ts

/-- Tokens that a text from this source can have. -/
structure WellFormed (source : Source) (ts : List Token) : Prop where
  source : ∀ t ∈ ts, t.source = source
  words : ∀ t ∈ ts, t.quoted = false → IsWord t.text.toList
  inOrder : InOrder 1 ts

/-- A token without quotes is written as it stands, any other between double quotes. -/
def Token.word (t : Token) : Word :=
  if t.quoted then .quoted t.text else .bare t.text

/-- Behind a token, the line ends down to the line of the next one, or a blank if it is the same. -/
def gapTo (line next : Nat) : List Piece :=
  if line < next then List.replicate (next - line) (.blank '\n') else [.blank ' ']

/-- Each token on its line, behind one that has ended on this line. -/
def piecesBehind : Nat → List Token → List Piece
  | _, [] => []
  | line, t :: ts => gapTo line t.line ++ t.word.piece :: piecesBehind t.lastLine ts

/-- Each token on its line, with nothing in front of the first one but line ends. -/
def tokenPieces : List Token → List Piece
  | [] => []
  | t :: ts =>
    List.replicate (t.line - 1) (.blank '\n') ++ t.word.piece :: piecesBehind t.lastLine ts

def printed (ts : List Token) : String :=
  String.ofList ((tokenPieces ts).flatMap Piece.chars)

theorem InOrder.mono {line line' : Nat} {ts : List Token} (h : InOrder line ts)
    (hle : line' ≤ line) : InOrder line' ts := by
  cases ts with
  | nil => trivial
  | cons t ts => exact ⟨Nat.le_trans hle h.1, h.2⟩

section read

variable {source : Source} {line : Nat} {ps : List Piece}

theorem inOrder_tokensOf : InOrder line (tokensOf source line ps) := by
  induction ps generalizing line with
  | nil => trivial
  | cons p ps ih =>
    rw [tokensOf]
    cases hp : p.token? source line with
    | none => exact ih.mono (Nat.le_add_right _ _)
    | some t =>
      obtain ⟨hline, hlast⟩ := Piece.line_of_token? hp
      exact ⟨Nat.le_of_eq hline.symm, ih.mono hlast⟩

theorem proper_word_iff {cs : List Char} : (Piece.word cs).Proper ↔ IsWord cs := by
  cases cs with
  | nil => exact iff_of_false id fun h => h.nonempty rfl
  | cons c cs =>
    constructor
    · rintro ⟨hb, hhash, hmark, hsolid⟩
      obtain ⟨hquote, hback⟩ := Quote.ofMark?_eq_none_iff.mp hmark
      refine ⟨List.cons_ne_nil c cs, List.forall_mem_cons.mpr ⟨hb, hsolid⟩, ?_⟩
      simp [hhash, hquote, hback]
    · rintro ⟨_, hsolid, hstart⟩
      obtain ⟨hb, hcs⟩ := List.forall_mem_cons.mp hsolid
      obtain ⟨hhash, hmark⟩ : c ≠ '#' ∧ c ≠ '"' ∧ c ≠ '\x60' := by simpa using hstart c rfl
      exact ⟨hb, hhash, Quote.ofMark?_eq_none_iff.mpr hmark, hcs⟩

theorem isWord_of_spells {p : Piece} {t : Token} (hp : p.Proper) (h : p.Spells t)
    (hq : t.quoted = false) : IsWord t.text.toList := by
  cases p with
  | blank => exact h.elim
  | comment => exact h.elim
  | quoted q body => rw [h.1] at hq; cases hq
  | word w =>
    rw [h.2]
    exact proper_word_iff.mp hp

theorem wellFormed_of_tokenize {text : String} {ts : List Token}
    (h : tokenize source text = .ok ts) : WellFormed source ts := by
  obtain ⟨hclosed, hts⟩ := tokenize_eq_ok_iff.mp h
  refine ⟨fun t ht => source_of_mem_tokenize h ht, fun t ht hq => ?_, hts ▸ inOrder_tokensOf⟩
  obtain ⟨us, vs, rfl⟩ := List.append_of_mem ht
  obtain ⟨front, p, back, hps, _, hp, _⟩ := tokensOf_split hts
  have hreadable := Pieces.readable_ofChars hclosed
  rw [hps] at hreadable
  have hproper := proper_of_readable hreadable
  exact isWord_of_spells hproper (Piece.spells_of_token? hproper hp) hq

end read

section written

variable {source : Source} {line next : Nat} {ps : List Piece} {ts : List Token} {t : Token}

theorem Token.proper_word (h : t.quoted = false → IsWord t.text.toList) : t.word.Proper := by
  unfold Token.word
  cases hq : t.quoted with
  | true => exact Word.proper_quoted t.text
  | false => exact proper_word_iff.mpr (h hq)

theorem Token.token_word (h : t.source = source) : t.word.token source t.line = t := by
  obtain ⟨_, line, text, quoted⟩ := t
  subst h
  cases quoted <;> rfl

theorem Token.text_word (t : Token) : t.word.text = t.text := by
  unfold Token.word
  cases t.quoted <;> rfl

theorem tokensOf_word (h : t.source = source) :
    tokensOf source t.line (t.word.piece :: ps) = t :: tokensOf source t.lastLine ps := by
  have hlast : t.line + t.word.newlines = t.lastLine := by
    rw [Word.newlines, t.text_word, Token.lastLine]
  rw [tokensOf, Word.token?_piece, Word.newlines_chars, hlast, Token.token_word h]
  rfl

theorem tokensOf_lineEnds (n : Nat) :
    tokensOf source line (List.replicate n (.blank '\n') ++ ps) =
      tokensOf source (line + n) ps := by
  induction n generalizing line with
  | zero => rfl
  | succ n ih =>
    have hnewline : newlines (Piece.blank '\n').chars = 1 := by decide
    rw [List.replicate_succ, List.cons_append, tokensOf, hnewline, ih, Nat.add_assoc,
      Nat.add_comm 1]
    rfl

theorem tokensOf_gapTo (h : line ≤ next) :
    tokensOf source line (gapTo line next ++ ps) = tokensOf source next ps := by
  unfold gapTo
  split
  next => rw [tokensOf_lineEnds, Nat.add_sub_cancel' h]
  next hle =>
    obtain rfl : line = next := by omega
    rfl

theorem tokensOf_piecesBehind (hsource : ∀ t ∈ ts, t.source = source) (h : InOrder line ts) :
    tokensOf source line (piecesBehind line ts) = ts := by
  induction ts generalizing line with
  | nil => rfl
  | cons t ts ih =>
    obtain ⟨ht, hts⟩ := List.forall_mem_cons.mp hsource
    rw [piecesBehind, tokensOf_gapTo h.1, tokensOf_word ht, ih hts h.2]

theorem tokensOf_tokenPieces (h : WellFormed source ts) :
    tokensOf source 1 (tokenPieces ts) = ts := by
  cases ts with
  | nil => rfl
  | cons t ts =>
    obtain ⟨ht, hts⟩ := List.forall_mem_cons.mp h.source
    obtain ⟨hfirst, horder⟩ := h.inOrder
    rw [tokenPieces, tokensOf_lineEnds, Nat.add_sub_cancel' hfirst, tokensOf_word ht,
      tokensOf_piecesBehind hts horder]

theorem readable_lineEnds (n : Nat) (h : Readable ps) :
    Readable (List.replicate n (.blank '\n') ++ ps) := by
  induction n with
  | zero => exact h
  | succ n ih => exact ⟨isBlank_newline, trivial, ih⟩

theorem readable_gapTo (h : Readable ps) : Readable (gapTo line next ++ ps) := by
  unfold gapTo
  split
  next => exact readable_lineEnds _ h
  next =>
    have hblank : isBlank ' ' = true := by decide
    exact ⟨hblank, trivial, h⟩

/-- A gap starts with a blank, so that any token may end in front of it. -/
theorem gapTo_eq_cons (line next : Nat) : ∃ c gs, gapTo line next = .blank c :: gs ∧
    isBlank c = true := by
  unfold gapTo
  split
  next hlt =>
    obtain ⟨k, hk⟩ := Nat.exists_eq_add_of_lt hlt
    have hsub : next - line = k + 1 := by omega
    rw [hsub]
    exact ⟨'\n', List.replicate k (.blank '\n'), rfl, isBlank_newline⟩
  next => exact ⟨' ', [], rfl, by decide⟩

theorem endsBefore_piecesBehind (w : Word) (line : Nat) (ts : List Token) :
    w.piece.EndsBefore ((piecesBehind line ts).flatMap Piece.chars) := by
  cases ts with
  | nil => cases w <;> simp [Word.piece, Piece.EndsBefore, piecesBehind]
  | cons t ts =>
    obtain ⟨c, gs, hgap, hblank⟩ := gapTo_eq_cons line t.line
    rw [piecesBehind, hgap]
    exact w.endsBefore_blank hblank _

theorem readable_piecesBehind (h : ∀ t ∈ ts, t.quoted = false → IsWord t.text.toList) :
    Readable (piecesBehind line ts) := by
  induction ts generalizing line with
  | nil => trivial
  | cons t ts ih =>
    obtain ⟨ht, hts⟩ := List.forall_mem_cons.mp h
    exact readable_gapTo ⟨Token.proper_word ht, endsBefore_piecesBehind _ _ _, ih hts⟩

theorem readable_tokenPieces (h : ∀ t ∈ ts, t.quoted = false → IsWord t.text.toList) :
    Readable (tokenPieces ts) := by
  cases ts with
  | nil => trivial
  | cons t ts =>
    obtain ⟨ht, hts⟩ := List.forall_mem_cons.mp h
    exact readable_lineEnds _
      ⟨Token.proper_word ht, endsBefore_piecesBehind _ _ _, readable_piecesBehind hts⟩

theorem tokenize_of_wellFormed (h : WellFormed source ts) :
    tokenize source (printed ts) = .ok ts := by
  rw [tokenize_eq_ok_iff, printed, String.toList_ofList,
    Pieces.ofChars_flatMap (readable_tokenPieces h.words)]
  exact ⟨rfl, tokensOf_tokenPieces h⟩

end written

/-- The tokens of a text are well formed, and well-formed tokens are those of the text that prints
them. So what is read, printed and read again is what was read first. -/
theorem tokenize_printed (source : Source) :
    (∀ text ts, tokenize source text = .ok ts →
        WellFormed source ts ∧ tokenize source (printed ts) = .ok ts) ∧
      ∀ ts, WellFormed source ts → tokenize source (printed ts) = .ok ts := by
  refine ⟨fun text ts h => ?_, fun ts => tokenize_of_wellFormed⟩
  have hformed := wellFormed_of_tokenize h
  exact ⟨hformed, tokenize_of_wellFormed hformed⟩

/-- The line ends of a quoted text count for the token behind it. -/
example : printed [⟨none, 2, "a", false⟩, ⟨none, 2, "b\n\\", true⟩, ⟨none, 3, "", true⟩,
    ⟨none, 4, "c", false⟩] = "\na \"b\n\\\\\" \"\"\nc" := by
  decide +kernel

end NodeLayers
