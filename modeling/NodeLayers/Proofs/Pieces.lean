import NodeLayers.Token

namespace NodeLayers

/-- A body that the closing mark behind it ends, and no mark within it. -/
def Quote.Encloses (q : Quote) : List Char → Prop
  | [] => True
  | [c] => c ≠ q.mark ∧ q.escapes c q.mark = false
  | c :: d :: rest =>
    c ≠ q.mark ∧ if q.escapes c d then q.Encloses rest else q.Encloses (d :: rest)

theorem Quote.close?_mark (q : Quote) (after : List Char) :
    q.close? (q.mark :: after) = some ([], after) := by
  cases after <;> simp [Quote.close?]

theorem Quote.close?_append {q : Quote} {body : List Char} (h : q.Encloses body)
    (after : List Char) : q.close? (body ++ q.mark :: after) = some (body, after) := by
  fun_induction Quote.Encloses q body with
  | case1 => exact q.close?_mark after
  | case2 c =>
    obtain ⟨hm, he⟩ := h
    simp [Quote.close?, hm, he, q.close?_mark]
  | case3 c d rest skipped plain =>
    obtain ⟨hm, hrest⟩ := h
    rw [List.cons_append, List.cons_append, Quote.close?, if_neg hm]
    by_cases he : q.escapes c d = true
    · rw [if_pos he] at hrest
      rw [if_pos he, skipped hrest]
      rfl
    · rw [if_neg he] at hrest
      have hd := plain hrest
      rw [List.cons_append] at hd
      rw [if_neg he, hd]
      rfl

theorem Quote.encloses_of_close? {q : Quote} {cs body after : List Char}
    (h : q.close? cs = some (body, after)) : q.Encloses body := by
  fun_induction Quote.close? q cs generalizing body after with
  | case1 => cases h
  | case2 => cases h; trivial
  | case3 => cases h
  | case4 => cases h; trivial
  | case5 c d rest hm he ih =>
    obtain ⟨⟨b, a⟩, hp, hb⟩ := Option.map_eq_some_iff.mp h
    cases hb
    simpa [Quote.Encloses, hm, he] using ih hp
  | case6 c d rest hm he ih =>
    obtain ⟨⟨b, a⟩, hp, hb⟩ := Option.map_eq_some_iff.mp h
    cases hb
    have hbody := ih hp
    have hcs := Quote.close?_eq_some hp
    cases b with
    | nil =>
      rw [List.nil_append] at hcs
      obtain ⟨rfl, _⟩ := List.cons.inj hcs
      exact ⟨hm, by simpa using he⟩
    | cons e b =>
      obtain ⟨rfl, _⟩ := List.cons.inj hcs
      simpa [Quote.Encloses, hm, he] using hbody

/-- A piece as it can stand in a text. -/
def Piece.Proper : Piece → Prop
  | .blank c => isBlank c = true
  | .comment body => '\n' ∉ body
  | .quoted q body => q.Encloses body
  | .word [] => False
  | .word (c :: rest) =>
    isBlank c = false ∧ c ≠ '#' ∧ Quote.ofMark? c = none ∧ ∀ d ∈ rest, isBlank d = false

/-- Comments run to the end of their line and words to a blank; the other pieces say themselves
where they end. -/
def Piece.EndsBefore : Piece → List Char → Prop
  | .comment _, rest => ∀ c ∈ rest.head?, c = '\n'
  | .word _, rest => ∀ c ∈ rest.head?, isBlank c = true
  | _, _ => True

/-- Proper pieces, each of which ends where the next one starts. -/
def Readable : List Piece → Prop
  | [] => True
  | p :: ps => p.Proper ∧ p.EndsBefore (ps.flatMap Piece.chars) ∧ Readable ps

/-- Pieces that are read off the front of a text, whatever is read of the `rest`. -/
def ReadableBefore : List Piece → List Char → Prop
  | [], _ => True
  | p :: ps, rest =>
    p.Proper ∧ p.EndsBefore (ps.flatMap Piece.chars ++ rest) ∧ ReadableBefore ps rest

theorem readableBefore_nil {ps : List Piece} : ReadableBefore ps [] ↔ Readable ps := by
  induction ps with
  | nil => exact Iff.rfl
  | cons p ps ih => rw [ReadableBefore, Readable, List.append_nil, ih]

theorem readableBefore_append {ps qs : List Piece} {rest : List Char} :
    ReadableBefore (ps ++ qs) rest ↔
      ReadableBefore ps (qs.flatMap Piece.chars ++ rest) ∧ ReadableBefore qs rest := by
  induction ps with
  | nil => simp [ReadableBefore]
  | cons p ps ih =>
    rw [List.cons_append, ReadableBefore, ReadableBefore, ih, List.flatMap_append,
      List.append_assoc, and_assoc, and_assoc]

theorem Quote.ofMark?_mark (q : Quote) : Quote.ofMark? q.mark = some q := by
  cases q <;> decide

theorem Quote.isBlank_mark (q : Quote) : isBlank q.mark = false := by
  cases q <;> decide

theorem Quote.mark_ne_hash (q : Quote) : q.mark ≠ '#' := by
  cases q <;> decide

theorem takeWhile_append_stop {p : Char → Bool} {cs rest : List Char} (h : ∀ c ∈ cs, p c = true)
    (hr : ∀ c ∈ rest.head?, p c = false) :
    (cs ++ rest).takeWhile p = cs ∧ (cs ++ rest).dropWhile p = rest := by
  have htake : rest.takeWhile p = [] := by
    cases rest with
    | nil => rfl
    | cons d rest => simp [hr d (by simp)]
  have hdrop : rest.dropWhile p = rest := by
    cases rest with
    | nil => rfl
    | cons d rest => simp [hr d (by simp)]
  exact ⟨by rw [List.takeWhile_append_of_pos h, htake, List.append_nil],
    by rw [List.dropWhile_append_of_pos h, hdrop]⟩

theorem Piece.next_of_proper {p : Piece} (h : p.Proper) {rest : List Char}
    (he : p.EndsBefore rest) :
    ∃ c cs, p.chars ++ rest = c :: cs ∧ Piece.next c cs = .ok (p, rest) := by
  cases p with
  | blank c =>
    have hc : isBlank c = true := h
    exact ⟨c, rest, rfl, by simp [Piece.next, hc]⟩
  | comment body =>
    have hbody : ∀ d ∈ body, decide (d ≠ '\n') = true := by
      intro d hd
      simpa using fun hn : d = '\n' => h (hn ▸ hd)
    obtain ⟨htake, hdrop⟩ := takeWhile_append_stop hbody (fun d hd => by simpa using he d hd)
    have hhash : isBlank '#' = false := by decide
    refine ⟨'#', body ++ rest, rfl, ?_⟩
    rw [Piece.next, if_neg (by simp [hhash]), if_pos rfl, htake, hdrop]
  | quoted q body =>
    refine ⟨q.mark, body ++ q.mark :: rest, by simp [Piece.chars], ?_⟩
    rw [Piece.next, if_neg (by simp [q.isBlank_mark]), if_neg q.mark_ne_hash, q.ofMark?_mark]
    simp only [Quote.close?_append h]
  | word cs =>
    cases cs with
    | nil => exact h.elim
    | cons c cs =>
      obtain ⟨hb, hh, hq, hcs⟩ := h
      have hword : ∀ d ∈ cs, (!isBlank d) = true := fun d hd => by simp [hcs d hd]
      obtain ⟨htake, hdrop⟩ := takeWhile_append_stop hword (fun d hd => by simpa using he d hd)
      refine ⟨c, cs ++ rest, rfl, ?_⟩
      rw [Piece.next, if_neg (by simp [hb]), if_neg hh, hq]
      simp only [htake, hdrop]

theorem Pieces.ofChars_of_next {c : Char} {rest after : List Char} {p : Piece}
    (h : Piece.next c rest = .ok (p, after)) :
    Pieces.ofChars (c :: rest) =
      ⟨p :: (Pieces.ofChars after).pieces, (Pieces.ofChars after).unclosed⟩ := by
  rw [Pieces.ofChars.eq_def]
  dsimp only
  split
  next q hq => cases h.symm.trans hq
  next q a hq => cases h.symm.trans hq; rfl

theorem Pieces.ofChars_append {ps : List Piece} {rest : List Char} (h : ReadableBefore ps rest) :
    Pieces.ofChars (ps.flatMap Piece.chars ++ rest) =
      ⟨ps ++ (Pieces.ofChars rest).pieces, (Pieces.ofChars rest).unclosed⟩ := by
  induction ps with
  | nil => rfl
  | cons p ps ih =>
    obtain ⟨hp, he, hps⟩ := h
    obtain ⟨c, cs, hcs, hn⟩ := Piece.next_of_proper hp he
    rw [List.flatMap_cons, List.append_assoc, hcs, Pieces.ofChars_of_next hn, ih hps]
    rfl

theorem Pieces.ofChars_nil : Pieces.ofChars [] = ⟨[], none⟩ := by
  rw [Pieces.ofChars.eq_def]

theorem Pieces.ofChars_flatMap {ps : List Piece} (h : Readable ps) :
    Pieces.ofChars (ps.flatMap Piece.chars) = ⟨ps, none⟩ := by
  have happend := Pieces.ofChars_append (readableBefore_nil.mpr h)
  rwa [Pieces.ofChars_nil, List.append_nil, List.append_nil] at happend

theorem head?_dropWhile_eq_false {p : Char → Bool} (cs : List Char) :
    ∀ c ∈ (cs.dropWhile p).head?, p c = false := by
  intro c hc
  have h := List.head?_dropWhile_not p cs
  rwa [Option.mem_def.mp hc] at h

/-- What is read as a piece is a proper one, and it ends where the rest starts. -/
theorem Piece.proper_of_next {c : Char} {rest after : List Char} {p : Piece}
    (h : Piece.next c rest = .ok (p, after)) : p.Proper ∧ p.EndsBefore after := by
  unfold Piece.next at h
  split at h
  next hb => cases h; exact ⟨hb, trivial⟩
  next hb =>
    split at h
    next =>
      cases h
      refine ⟨fun hn => ?_, fun d hd => by simpa using head?_dropWhile_eq_false rest d hd⟩
      simpa using List.all_eq_true.mp List.all_takeWhile _ hn
    next hh =>
      split at h
      next q hq =>
        split at h
        next body a hbody => cases h; exact ⟨Quote.encloses_of_close? hbody, trivial⟩
        next => cases h
      next hq =>
        cases h
        refine ⟨⟨by simpa using hb, hh, hq,
            fun d hd => by simpa using List.all_eq_true.mp List.all_takeWhile d hd⟩,
          fun d hd => by simpa using head?_dropWhile_eq_false rest d hd⟩

/-- A quote opens here that nothing behind it closes. -/
def Quote.OpensForever (q : Quote) (cs : List Char) : Prop :=
  ∃ body, cs = q.mark :: body ∧ ∀ inner after, body = inner ++ q.mark :: after → ¬q.Encloses inner

theorem Quote.opensForever_of_next {c : Char} {rest : List Char} {q : Quote}
    (h : Piece.next c rest = .error q) : q.OpensForever (c :: rest) := by
  unfold Piece.next at h
  split at h
  next => cases h
  next =>
    split at h
    next => cases h
    next =>
      split at h
      next p hp =>
        split at h
        next => cases h
        next hnone =>
          cases h
          refine ⟨rest, by rw [Quote.ofMark?_eq_some hp], fun inner after hrest hinner => ?_⟩
          rw [hrest, Quote.close?_append hinner] at hnone
          cases hnone
      next => cases h

/-- Of any text, pieces are read up to its end or up to a quote that is never closed. -/
theorem Pieces.readableBefore_ofChars (cs : List Char) :
    ∃ rest, cs = (Pieces.ofChars cs).pieces.flatMap Piece.chars ++ rest ∧
      ReadableBefore (Pieces.ofChars cs).pieces rest ∧
      ((Pieces.ofChars cs).unclosed = none → rest = []) ∧
      ∀ q, (Pieces.ofChars cs).unclosed = some q → q.OpensForever rest := by
  fun_induction Pieces.ofChars cs with
  | case1 =>
    refine ⟨[], rfl, trivial, fun _ => rfl, fun q hq => ?_⟩
    cases hq
  | case2 c rest q hn =>
    refine ⟨c :: rest, rfl, trivial, fun hq => ?_, fun q' hq => ?_⟩
    · cases hq
    · cases hq
      exact Quote.opensForever_of_next hn
  | case3 c text p after hp hlt tail ih =>
    obtain ⟨rest, hafter, hreadable, hend, hquote⟩ := ih
    obtain ⟨hproper, hends⟩ := Piece.proper_of_next hp
    have hchars := Piece.next_chars hp
    refine ⟨rest, ?_, ⟨hproper, hafter ▸ hends, hreadable⟩, hend, hquote⟩
    rw [List.flatMap_cons, List.append_assoc, ← hafter, hchars]

theorem Pieces.readable_ofChars {cs : List Char} (h : (Pieces.ofChars cs).unclosed = none) :
    Readable (Pieces.ofChars cs).pieces := by
  obtain ⟨rest, _, hreadable, hend, _⟩ := Pieces.readableBefore_ofChars cs
  rw [hend h] at hreadable
  exact readableBefore_nil.mp hreadable

/-- A line end closes whatever piece stands before it. -/
theorem Piece.EndsBefore.append_newline {p : Piece} {cs : List Char} (h : p.EndsBefore cs)
    (rest : List Char) : p.EndsBefore (cs ++ '\n' :: rest) := by
  cases cs with
  | nil =>
    cases p with
    | comment body => intro c hc; simpa [eq_comm] using hc
    | word w =>
      intro c hc
      obtain rfl : '\n' = c := by simpa using hc
      exact isBlank_newline
    | _ => trivial
  | cons c cs =>
    cases p with
    | comment body => exact h
    | word w => exact h
    | _ => trivial

theorem Readable.before_newline {ps : List Piece} (h : Readable ps) (rest : List Char) :
    ReadableBefore ps ('\n' :: rest) := by
  induction ps with
  | nil => trivial
  | cons p ps ih =>
    obtain ⟨hproper, hends, hps⟩ := h
    exact ⟨hproper, hends.append_newline rest, ih hps⟩

/-- Behind a line end a text is read as if it stood alone. -/
theorem Pieces.ofChars_append_newline {cs : List Char}
    (hc : (Pieces.ofChars cs).unclosed = none) (ds : List Char) :
    Pieces.ofChars (cs ++ '\n' :: ds) =
      ⟨(Pieces.ofChars cs).pieces ++ .blank '\n' :: (Pieces.ofChars ds).pieces,
        (Pieces.ofChars ds).unclosed⟩ := by
  have h := Pieces.ofChars_append ((Pieces.readable_ofChars hc).before_newline ds)
  have hline : Piece.next '\n' ds = .ok (.blank '\n', ds) := if_pos isBlank_newline
  rwa [Pieces.chars_ofChars hc, Pieces.ofChars_of_next hline] at h

theorem tokensOf_append (source : Source) (line : Nat) (ps qs : List Piece) :
    tokensOf source line (ps ++ qs) =
      tokensOf source line ps ++
        tokensOf source (line + newlines (ps.flatMap Piece.chars)) qs := by
  induction ps generalizing line with
  | nil => simp [tokensOf, newlines]
  | cons p ps ih =>
    rw [List.cons_append, tokensOf, tokensOf, ih, List.flatMap_cons, newlines_append,
      List.append_assoc, Nat.add_assoc]

theorem exists_of_tokensOf {source : Source} {line : Nat} {ps : List Piece} {ts us : List Token}
    {t : Token} (h : tokensOf source line ps = ts ++ t :: us) :
    ∃ before p after, ps = before ++ p :: after ∧ tokensOf source line before = ts ∧
      p.token? source (line + newlines (before.flatMap Piece.chars)) = some t := by
  induction ps generalizing line ts with
  | nil => cases ts <;> cases h
  | cons p ps ih =>
    rw [tokensOf] at h
    cases hp : p.token? source line with
    | none =>
      rw [hp] at h
      obtain ⟨before, q, after, rfl, hts, ht⟩ := ih h
      refine ⟨p :: before, q, after, rfl, ?_, ?_⟩
      · rw [tokensOf, hp]
        exact hts
      · rwa [List.flatMap_cons, newlines_append, ← Nat.add_assoc]
    | some u =>
      rw [hp] at h
      cases ts with
      | nil =>
        obtain ⟨rfl, _⟩ := List.cons.inj h
        exact ⟨[], p, ps, rfl, rfl, hp⟩
      | cons v ts =>
        obtain ⟨rfl, hrest⟩ := List.cons.inj h
        obtain ⟨before, q, after, rfl, hts, ht⟩ := ih hrest
        refine ⟨p :: before, q, after, rfl, ?_, ?_⟩
        · rw [tokensOf, hp, hts]
          rfl
        · rwa [List.flatMap_cons, newlines_append, ← Nat.add_assoc]

def Token.lower (k : Nat) (t : Token) : Token :=
  { t with line := t.line + k }

theorem tokensOf_add (source : Source) (line k : Nat) (ps : List Piece) :
    tokensOf source (line + k) ps = (tokensOf source line ps).map (·.lower k) := by
  induction ps generalizing line with
  | nil => rfl
  | cons p ps ih =>
    have htoken : (p.token? source (line + k)).toList =
        (p.token? source line).toList.map (·.lower k) := by
      cases p <;> rfl
    rw [tokensOf, tokensOf, List.map_append, htoken, Nat.add_right_comm, ih]

theorem tokenize_eq_ok_iff {source : Source} {text : String} {ts : List Token} :
    tokenize source text = .ok ts ↔
      (Pieces.ofChars text.toList).unclosed = none ∧
        tokensOf source 1 (Pieces.ofChars text.toList).pieces = ts := by
  unfold tokenize
  cases h : (Pieces.ofChars text.toList).unclosed <;> simp [h]

/-- The tokens of a text follow those of the text before it, as many lines lower as that has. -/
theorem tokenize_append_newline {source : Source} {a b : String} {ts us : List Token}
    (ha : tokenize source a = .ok ts) (hb : tokenize source b = .ok us) :
    tokenize source (a ++ "\n" ++ b) =
      .ok (ts ++ us.map (·.lower (newlines a.toList + 1))) := by
  obtain ⟨hac, rfl⟩ := tokenize_eq_ok_iff.mp ha
  obtain ⟨hbc, rfl⟩ := tokenize_eq_ok_iff.mp hb
  have htext : (a ++ "\n" ++ b).toList = a.toList ++ '\n' :: b.toList := by simp
  rw [tokenize_eq_ok_iff, htext, Pieces.ofChars_append_newline hac]
  refine ⟨hbc, ?_⟩
  rw [tokensOf_append, Pieces.chars_ofChars hac, tokensOf, ← tokensOf_add, ← Nat.add_assoc]
  rfl

/-- A text with a line end behind a text that can be read is read just when the rest is. -/
theorem exists_tokenize_of_append_newline {source : Source} {a b : String} {ts vs : List Token}
    (ha : tokenize source a = .ok ts) (h : tokenize source (a ++ "\n" ++ b) = .ok vs) :
    ∃ us, tokenize source b = .ok us := by
  obtain ⟨hac, _⟩ := tokenize_eq_ok_iff.mp ha
  obtain ⟨hvs, _⟩ := tokenize_eq_ok_iff.mp h
  have htext : (a ++ "\n" ++ b).toList = a.toList ++ '\n' :: b.toList := by simp
  rw [htext, Pieces.ofChars_append_newline hac] at hvs
  exact ⟨_, tokenize_eq_ok_iff.mpr ⟨hvs, rfl⟩⟩

theorem newlines_decode (q : Quote) (cs : List Char) : newlines (q.decode cs) = newlines cs := by
  fun_induction Quote.decode q cs with
  | case1 c d rest he ih =>
    have hc : c = '\\' := by
      have hboth := he
      simp only [Quote.escapes, decide_eq_true_eq] at hboth
      exact hboth.2.1
    subst hc
    simp only [newlines, List.count_cons] at ih ⊢
    simp [ih]
  | case2 c d rest he ih =>
    simp only [newlines, List.count_cons] at ih ⊢
    rw [ih]
  | case3 => rfl

/-- A token ends on the line on which its piece does. -/
theorem Piece.line_of_token? {source : Source} {line : Nat} {p : Piece} {t : Token}
    (h : p.token? source line = some t) :
    t.line = line ∧ t.lastLine ≤ line + newlines p.chars := by
  cases p with
  | blank => cases h
  | comment => cases h
  | word w =>
    cases h
    refine ⟨rfl, ?_⟩
    rw [Token.lastLine, String.toList_ofList]
    exact Nat.le_refl _
  | quoted q body =>
    cases h
    refine ⟨rfl, ?_⟩
    rw [Token.lastLine, String.toList_ofList, newlines_decode]
    simp only [Piece.chars, List.cons_append, newlines, List.count_cons, List.count_append]
    omega

theorem line_of_mem_tokensOf {source : Source} {line : Nat} {ps : List Piece} {t : Token}
    (h : t ∈ tokensOf source line ps) :
    line ≤ t.line ∧ t.lastLine ≤ line + newlines (ps.flatMap Piece.chars) := by
  induction ps generalizing line with
  | nil => cases h
  | cons p ps ih =>
    rw [List.flatMap_cons, newlines_append]
    rcases List.mem_append.mp h with hp | hps
    · obtain ⟨hline, hlast⟩ := Piece.line_of_token? (Option.mem_toList.mp hp)
      omega
    · obtain ⟨hline, hlast⟩ := ih hps
      omega

/-- A token stands on a line of the text. -/
theorem line_of_mem_tokenize {source : Source} {text : String} {ts : List Token} {t : Token}
    (h : tokenize source text = .ok ts) (ht : t ∈ ts) :
    1 ≤ t.line ∧ t.lastLine ≤ 1 + newlines text.toList := by
  obtain ⟨hclosed, rfl⟩ := tokenize_eq_ok_iff.mp h
  have hlines := line_of_mem_tokensOf ht
  rwa [Pieces.chars_ofChars hclosed] at hlines

theorem source_of_mem_tokensOf {source : Source} {line : Nat} {ps : List Piece} {t : Token}
    (h : t ∈ tokensOf source line ps) : t.source = source := by
  induction ps generalizing line with
  | nil => cases h
  | cons p ps ih =>
    rcases List.mem_append.mp h with hp | hps
    · cases p with
      | quoted q body =>
        obtain rfl := List.mem_singleton.mp hp
        rfl
      | word cs =>
        obtain rfl := List.mem_singleton.mp hp
        rfl
      | blank c => cases hp
      | comment body => cases hp
    · exact ih hps

theorem source_of_mem_tokenize {source : Source} {text : String} {ts : List Token} {t : Token}
    (h : tokenize source text = .ok ts) (ht : t ∈ ts) : t.source = source := by
  obtain ⟨_, rfl⟩ := tokenize_eq_ok_iff.mp h
  exact source_of_mem_tokensOf ht

end NodeLayers
