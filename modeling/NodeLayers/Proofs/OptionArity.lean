import NodeLayers.Proofs.ClosingBrace
import NodeLayers.Proofs.ReadOptions

namespace NodeLayers

/-- How many arguments an option is to have. -/
def Keyword.Allows : Keyword → Nat → Prop
  | .tags, _ => True
  | .ephemeral, n | .webui, n => n ≤ 1
  | _, n => n = 1

/-- The line is a keyword with as many arguments as it allows. -/
def KeepsArity (line : List Token) : Prop :=
  ∃ t as k, line = t :: as ∧ Keyword.ofText? t.text = some k ∧ k.Allows as.length

/-- The options that a line gives: each takes one argument, as long as tokens are left behind it,
and the last one takes all there are. -/
inductive OptionRow : List Token → List Setting → Prop
  | one {k t as s} :
      Keyword.ofText? t.text = some k → k.setting? (as.map Token.text) = some s →
      OptionRow (t :: as) [s]
  | more {k t a line s options} :
      Keyword.ofText? t.text = some k → k ≠ .tags → k.setting? [a.text] = some s →
      OptionRow line options → OptionRow (t :: a :: line) (s :: options)

/-- The body of a block as lines, none of them with a brace. -/
structure BodyLines (lines : List (List Token)) : Prop where
  oneLine : ∀ line ∈ lines, line ≠ [] ∧ OneLine line
  plain : ∀ t ∈ lines.flatten, t.closes = false ∧ t.opens = false
  laid : Laid lines []

theorem Keyword.allows_of_setting? {k : Keyword} {vs : List String} {s : Setting}
    (h : k.setting? vs = some s) : k.Allows vs.length := by
  by_cases hk : k = .tags
  · subst hk
    trivial
  · have hlength := Keyword.length_le_one h hk
    rcases vs with _ | ⟨v, _ | ⟨w, vs⟩⟩
    · cases k with
      | ephemeral => exact Nat.zero_le 1
      | webui => exact Nat.zero_le 1
      | tags => exact absurd rfl hk
      | _ => cases h
    · cases k with
      | tags => exact absurd rfl hk
      | ephemeral => exact Nat.le_refl 1
      | webui => exact Nat.le_refl 1
      | _ => exact rfl
    · simp only [List.length_cons] at hlength
      omega

theorem Keyword.not_allows_two {k : Keyword} (hk : k ≠ .tags) (n : Nat) : ¬k.Allows (n + 2) := by
  cases k with
  | tags => exact absurd rfl hk
  | _ => simp [Keyword.Allows]

section rows

variable {line : List Token} {options : List Setting}

theorem OptionRow.ne_nil (h : OptionRow line options) : line ≠ [] ∧ options ≠ [] := by
  cases h with
  | one => exact ⟨List.cons_ne_nil _ _, List.cons_ne_nil _ _⟩
  | more => exact ⟨List.cons_ne_nil _ _, List.cons_ne_nil _ _⟩

/-- A line keeps its arity just when it gives a single option. Otherwise its surplus arguments are a
line of options themselves. -/
theorem OptionRow.keepsArity_iff (h : OptionRow line options) :
    (KeepsArity line ↔ ∃ s, options = [s]) ∧
      (¬KeepsArity line →
        ∃ t a surplus more, line = t :: a :: surplus ∧ OptionRow surplus more) := by
  cases h with
  | @one k t as s hname hs =>
    have hkeeps : KeepsArity (t :: as) := by
      refine ⟨t, as, k, rfl, hname, ?_⟩
      have hallows := Keyword.allows_of_setting? hs
      rwa [List.length_map] at hallows
    exact ⟨iff_of_true hkeeps ⟨s, rfl⟩, fun hno => absurd hkeeps hno⟩
  | @more k t a line s options hname hk hs hrow =>
    have hkeeps : ¬KeepsArity (t :: a :: line) := by
      rintro ⟨t', as', k', heq, hname', hallows⟩
      obtain ⟨rfl, rfl⟩ := List.cons.inj heq
      obtain rfl : k = k' := Option.some.inj (hname.symm.trans hname')
      obtain ⟨u, line, rfl⟩ := List.exists_cons_of_ne_nil hrow.ne_nil.1
      exact Keyword.not_allows_two hk line.length hallows
    have hoptions : ¬∃ r, s :: options = [r] := by
      rintro ⟨r, heq⟩
      exact hrow.ne_nil.2 (List.cons.inj heq).2
    exact ⟨iff_of_false hkeeps hoptions, fun _ => ⟨t, a, line, options, rfl, hrow⟩⟩

end rows

section reading

variable {record final : Settings} {k : Keyword} {t : Token}
  {line as ts rest left : List Token} {words : List OptionWords} {lines : List (List Token)}

/-- What is read of a line is a row of options, perhaps with tokens that continue the line. -/
theorem Fills.optionRow (h : Fills record (line ++ rest) words final left) (hne : line ≠ [])
    (hl : OneLine line) (hplain : ∀ t ∈ line, t.closes = false ∧ t.opens = false)
    (hleft : ∀ u ∈ left.head?, u.closes = true) :
    ∃ options more later words', rest = more ++ later ∧ OptionRow (line ++ more) options ∧
      (EndsLine line rest → more = []) ∧
      Fills (options.foldl Settings.set record) later words' final left := by
  generalize hts : line ++ rest = ts at h
  induction h generalizing line with
  | done record left =>
    obtain ⟨t, line, rfl⟩ := List.exists_cons_of_ne_nil hne
    have hclose : t.closes = true := hleft t (by rw [← hts]; rfl)
    rw [(hplain t List.mem_cons_self).1] at hclose
    cases hclose
  | @option record k t as rest' s words final left hname htakes hs hfills ih =>
    obtain ⟨u, line, rfl⟩ := List.exists_cons_of_ne_nil hne
    obtain ⟨rfl, heq⟩ := List.cons.inj hts
    rw [Settings.keyword?_eq] at hname
    rcases List.append_eq_append_iff.mp heq with ⟨more, rfl, rfl⟩ | ⟨later, rfl, rfl⟩
    · refine ⟨[s], more, rest', words, rfl, .one hname hs, fun he => ?_, hfills⟩
      exact he.eq_nil hne htakes.oneLine
    cases later with
    | nil =>
      refine ⟨[s], [], rest, words, rfl, ?_, fun _ => rfl, hfills⟩
      simpa using OptionRow.one hname hs
    | cons v later =>
      have hopen := (hplain v (by simp)).2
      have hroom := htakes.not_hasRoom hl hopen
      obtain ⟨hk, has⟩ := not_or.mp hroom
      obtain ⟨a, rfl⟩ : ∃ a, as = [a] := by
        have hlength := htakes.single hk
        rcases as with _ | ⟨a, _ | ⟨b, as⟩⟩
        · exact absurd rfl has
        · exact ⟨a, rfl⟩
        · simp only [List.length_cons] at hlength
          omega
      have hsuffix : v :: later <:+ u :: ([a] ++ v :: later) := ⟨[u, a], rfl⟩
      obtain ⟨options, more, rest', words', hrest, hrow, hend, hlater⟩ :=
        ih (List.cons_ne_nil v later) (hl.suffix hsuffix)
          (fun w hw => hplain w (hsuffix.subset hw)) hleft rfl
      refine ⟨s :: options, more, rest', words', hrest, .more hname hk hs hrow, fun he => ?_,
        hlater⟩
      have hline : u :: ([a] ++ v :: later) = [u, a] ++ v :: later := rfl
      rw [hline] at he
      exact hend (he.of_append (List.cons_ne_nil v later))

/-- The last of the lines goes on with these tokens. -/
def runOn : List (List Token) → List Token → List (List Token)
  | [], _ => []
  | [line], more => [line ++ more]
  | line :: next :: lines, more => line :: runOn (next :: lines) more

theorem runOn_nil (lines : List (List Token)) : runOn lines [] = lines := by
  induction lines with
  | nil => rfl
  | cons line lines ih =>
    cases lines with
    | nil => rw [runOn, List.append_nil]
    | cons next lines => rw [runOn, ih]

theorem BodyLines.tail (h : BodyLines (line :: lines)) : BodyLines lines where
  oneLine l hl := h.oneLine l (List.mem_cons_of_mem line hl)
  plain t ht := h.plain t (List.mem_append_right line ht)
  laid := h.laid.2

theorem BodyLines.endsLine (h : BodyLines (line :: lines)) : EndsLine line lines.flatten := by
  have hends := h.laid.1
  rwa [List.append_nil] at hends

/-- What is read of a body is read line by line; only the last option may go on behind it. -/
theorem Fills.optionRows (hb : BodyLines lines)
    (h : Fills record (lines.flatten ++ rest) words final left)
    (hleft : ∀ u ∈ left.head?, u.closes = true) :
    ∃ more later rows, rest = more ++ later ∧ List.Forall₂ OptionRow (runOn lines more) rows := by
  induction lines generalizing record words with
  | nil => exact ⟨[], rest, [], rfl, .nil⟩
  | cons line lines ih =>
    obtain ⟨hne, hl⟩ := hb.oneLine line List.mem_cons_self
    have hplain : ∀ t ∈ line, t.closes = false ∧ t.opens = false := fun t ht =>
      hb.plain t (List.mem_append_left _ ht)
    rw [List.flatten_cons, List.append_assoc] at h
    obtain ⟨options, more, later, words', hrest, hrow, hend, hlater⟩ :=
      h.optionRow hne hl hplain hleft
    cases lines with
    | nil => exact ⟨more, later, [options], hrest, .cons hrow .nil⟩
    | cons next lines =>
      have hnext : (next :: lines).flatten ≠ [] :=
        List.append_ne_nil_of_left_ne_nil (hb.oneLine next (by simp)).1 lines.flatten
      have he : EndsLine line ((next :: lines).flatten ++ rest) := by
        intro t ht u hu
        rw [List.head?_append_of_ne_nil _ hnext] at hu
        exact hb.endsLine t ht u hu
      have hnone := hend he
      subst hnone
      rw [List.append_nil] at hrow
      rw [List.nil_append] at hrest
      subst hrest
      obtain ⟨more, later, rows, hsplit, hrows⟩ := ih hb.tail hlater
      exact ⟨more, later, options :: rows, hsplit, .cons hrow hrows⟩

theorem Fills.without_rest (h : Fills record ts words final left) :
    Fills record (words.flatMap OptionWords.tokens) words final [] := by
  induction h with
  | done record => exact .done record []
  | @option record k t as rest s words final left hname htakes hs hfills ih =>
    have htakes' : Takes k t as (words.flatMap OptionWords.tokens) := by
      apply htakes.of_head?
      intro u hu
      rw [hfills.tokens_eq]
      exact List.mem_head?_append_of_mem_head? hu
    exact .option hname htakes' hs ih

/-- A row of options is read as such where its line ends. -/
theorem OptionRow.exists_fills {options : List Setting} (h : OptionRow line options)
    (hl : OneLine line) (hplain : ∀ t ∈ line, t.opens = false) (he : EndsLine line rest)
    (record : Settings) :
    ∃ words, Fills record (line ++ rest) words (options.foldl Settings.set record) rest := by
  induction h generalizing record with
  | @one k t as s hname hs =>
    have htakes := takes_of_endsLine hl (fun a ha => hplain a (List.mem_cons_of_mem t ha)) he hs
    rw [← Settings.keyword?_eq record] at hname
    exact ⟨[⟨t, as⟩], .option hname htakes hs (.done _ rest)⟩
  | @more k t a line s options hname hk hs hrow ih =>
    obtain ⟨hshares, hl'⟩ := oneLine_cons_cons.mp hl
    have hends : EndsLine line rest := by
      have hline : t :: a :: line = [t, a] ++ line := rfl
      rw [hline] at he
      exact he.of_append hrow.ne_nil.1
    obtain ⟨u, line, rfl⟩ := List.exists_cons_of_ne_nil hrow.ne_nil.1
    obtain ⟨words, hfills⟩ := ih (oneLine_cons_cons.mp hl').2
      (fun w hw => hplain w (List.mem_cons_of_mem t (List.mem_cons_of_mem a hw))) hends
      (Settings.set record s)
    have htakes : Takes k t [a] (u :: line ++ rest) :=
      { oneLine := oneLine_pair.mpr hshares
        plain := by simpa using hplain a (by simp)
        single := fun _ => Nat.le_refl 1
        full := fun hroom => absurd hroom (not_or.mpr ⟨hk, List.cons_ne_nil a []⟩) }
    rw [← Settings.keyword?_eq record] at hname
    exact ⟨⟨t, [a]⟩ :: words, .option hname htakes hs hfills⟩

theorem exists_fills_of_rows {rows : List (List Setting)} (hb : BodyLines lines)
    (h : List.Forall₂ OptionRow lines rows) (record : Settings) :
    ∃ words, Fills record lines.flatten words (rows.flatten.foldl Settings.set record) [] := by
  induction h generalizing record with
  | nil => exact ⟨[], .done record []⟩
  | @cons line options lines rows hrow _ ih =>
    obtain ⟨_, hl⟩ := hb.oneLine line List.mem_cons_self
    obtain ⟨before, hbefore⟩ := hrow.exists_fills hl
      (fun t ht => (hb.plain t (List.mem_append_left _ ht)).2) hb.endsLine record
    obtain ⟨after, hafter⟩ := ih hb.tail (options.foldl Settings.set record)
    rw [List.flatten_cons, List.flatten_cons, List.foldl_append]
    exact ⟨before ++ after, hbefore.trans hafter⟩

/-- If no option takes the brace that closes the block, reading stops in front of it. -/
theorem Fills.before_brace {last : Token} {body : List Token}
    (h : Fills record body words final []) (hbrace : ¬TakesBrace record body last)
    (rest : List Token) : Fills record (body ++ last :: rest) words final (last :: rest) := by
  generalize hleft : [] = left at h
  induction h with
  | done record left =>
    subst hleft
    exact .done record (last :: rest)
  | @option record k t as later s words final left hname htakes hs hfills ih =>
    have hlater : ¬TakesBrace (OptionRecord.set record s) later last := fun hno =>
      hbrace (hno.behind hname htakes hs)
    have htakes' : Takes k t as (later ++ last :: rest) := by
      cases later with
      | cons u later =>
        apply htakes.of_head?
        intro v hv
        exact hv
      | nil =>
        refine ⟨htakes.oneLine, htakes.plain, htakes.single, fun hroom v hv u hu _ => ?_⟩
        obtain rfl : last = u := Option.some.inj hu
        cases hshares : v.sharesLine last with
        | false => rfl
        | true =>
          have hl : OneLine ((t :: as) ++ [last]) := by
            apply List.isChain_append.mpr
            refine ⟨htakes.oneLine, List.IsChain.singleton last, fun x hx y hy => ?_⟩
            obtain rfl : v = x := Option.some.inj (hv.symm.trans hx)
            obtain rfl : last = y := Option.some.inj hy
            exact hshares
          have hoption : OptionAtBrace record (t :: (as ++ [])) last record k t as :=
            ⟨⟨[], by rw [List.append_nil]; exact .done record (t :: as)⟩, hname, htakes.plain,
              hroom, hl⟩
          exact absurd ⟨_, _, _, _, hoption⟩ hbrace
    rw [List.cons_append, List.append_assoc]
    exact .option hname htakes' hs (ih hlater hleft)

end reading

/-- A brace on a line of its own is taken by no option. -/
theorem not_takesBrace {τ : Type} [OptionRecord τ] {record : τ} {body : List Token} {last : Token}
    (h : EndsLine body [last]) : ¬TakesBrace record body last := by
  rintro ⟨reached, k, t, as, hoption⟩
  obtain ⟨words, hfills⟩ := hoption.fills
  rw [hfills.tokens_eq] at h
  have hends : EndsLine (t :: as) ([last] ++ []) := h.of_append (List.cons_ne_nil t as)
  exact List.cons_ne_nil last [] (hends.eq_nil (List.cons_ne_nil t as) hoption.oneLine)

/-- A block that is read into a node's settings is a row of options in each of its lines, the last
of which goes on with the closing brace where an option takes it. Where none does, all these options
are set. A row keeps its arity just when it gives one option, and the surplus arguments of any other
are a row of options too. -/
theorem Cursor.AtBlock.readOptions_rows {c : Cursor} {brace last : Token} {rest : List Token}
    {lines : List (List Token)} (h : c.AtBlock brace lines.flatten last rest) (hn : c.nesting = 0)
    (hb : BodyLines lines) (record : Settings) :
    ((readOptions record c).failure = none →
        (∃ rows, List.Forall₂ OptionRow lines rows) ∨
          TakesBrace record lines.flatten last ∧ ∃ more later rows,
            last :: rest = more ++ later ∧ List.Forall₂ OptionRow (runOn lines more) rows) ∧
      (∀ rows, List.Forall₂ OptionRow lines rows → ¬TakesBrace record lines.flatten last →
        readOptions record c = ⟨rows.flatten.foldl Settings.set record,
          c.past (brace :: lines.flatten ++ [last]) rest, none⟩) ∧
      ∀ line options, OptionRow line options →
        (KeepsArity line ↔ ∃ s, options = [s]) ∧
          (¬KeepsArity line →
            ∃ t a surplus more, line = t :: a :: surplus ∧ OptionRow surplus more) := by
  refine ⟨fun hf => ?_, fun rows hrows hbrace => ?_, fun _ _ hrow => hrow.keepsArity_iff⟩
  · obtain ⟨words, left, hfills, hleft, ⟨hbody, _, _⟩ | ⟨htakes, _, _⟩⟩ :=
      h.fills_or_takesBrace hn hf
    · have hlines := hfills.without_rest
      rw [hbody, ← List.append_nil lines.flatten] at hlines
      obtain ⟨more, later, rows, hrest, hrows⟩ := hlines.optionRows hb (by simp)
      obtain ⟨rfl, _⟩ := List.append_eq_nil_iff.mp hrest.symm
      rw [runOn_nil] at hrows
      exact Or.inl ⟨rows, hrows⟩
    · exact Or.inr ⟨htakes, hfills.optionRows hb hleft⟩
  · obtain ⟨words, hfills⟩ := exists_fills_of_rows hb hrows record
    have hread := (hfills.before_brace hbrace rest).readOptions_eq (brace :: c.passed)
    have hbody : words.flatMap OptionWords.tokens = lines.flatten := by
      rw [hfills.tokens_eq, List.append_nil]
    have hfirst : ∀ t ∈ lines.flatten.head?, t.opens = false := fun t ht =>
      (hb.plain t (List.mem_of_mem_head? ht)).2
    rw [h.readOptions_eq hn hfirst record, hread,
      readOptions_of_false (Cursor.nextInBlock_close h.closes), hbody, past, hn]
    simp

def keyAndFlag : List Token :=
  [⟨none, 2, "auth_key", false⟩, ⟨none, 2, "a", false⟩, ⟨none, 2, "webui", false⟩]

/-- The cursor on a directive whose block has one line, with one argument too many. -/
def atKeyAndFlag : Cursor where
  passed := [⟨none, 1, "n", false⟩]
  ahead := ⟨none, 1, "\x7b", false⟩ :: (keyAndFlag ++ [⟨none, 3, "\x7d", false⟩])
  nesting := 0

theorem readOptions_atKeyAndFlag :
    ¬KeepsArity keyAndFlag ∧
      readOptions (∅ : Settings) atKeyAndFlag =
        ⟨{ (∅ : Settings) with authKey := "a", webui := some true },
          ⟨⟨none, 3, "\x7d", false⟩ :: keyAndFlag.reverse ++
            [⟨none, 1, "\x7b", false⟩, ⟨none, 1, "n", false⟩], [], 0⟩, none⟩ := by
  have hblock : Cursor.AtBlock atKeyAndFlag ⟨none, 1, "\x7b", false⟩ [keyAndFlag].flatten
      ⟨none, 3, "\x7d", false⟩ [] :=
    ⟨⟨_, rfl, by decide⟩, rfl, rfl, balanced_iff_level?.mpr rfl, rfl⟩
  have hlines : BodyLines [keyAndFlag] :=
    { oneLine := by
        simp [keyAndFlag, OneLine, Token.sharesLine, Source.agrees, Token.lastLine]
      plain := by simp [keyAndFlag, Token.opens, Token.closes]
      laid := by simp [Laid, EndsLine] }
  have hrow : OptionRow keyAndFlag [.authKey "a", .webui true] :=
    .more (k := .authKey) rfl (by decide) rfl (.one (k := .webui) rfl rfl)
  have hbrace : ¬TakesBrace (∅ : Settings) [keyAndFlag].flatten ⟨none, 3, "\x7d", false⟩ := by
    apply not_takesBrace
    simp [keyAndFlag, EndsLine, Token.sharesLine, Source.agrees, Token.lastLine, newlines]
  obtain ⟨_, hread, harity⟩ := hblock.readOptions_rows rfl hlines ∅
  refine ⟨fun hkeeps => ?_, hread _ (.cons hrow .nil) hbrace⟩
  obtain ⟨s, hs⟩ := (harity _ _ hrow).1.mp hkeeps
  cases hs

end NodeLayers
