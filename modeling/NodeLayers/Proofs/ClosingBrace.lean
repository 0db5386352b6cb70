import NodeLayers.Proofs.OptionReading

namespace NodeLayers

section

variable {τ : Type} [OptionRecord τ] {record middle reached final : τ} {k : Keyword}
  {t u last : Token} {as args ts us body rest left more : List Token} {words : List OptionWords}

/-- On the line of the brace that closes the block, an option stands in front of it that takes one
more argument. Up to that option the block is read to the record `reached`. -/
structure OptionAtBrace (record : τ) (body : List Token) (last : Token) (reached : τ) (k : Keyword)
    (t : Token) (as : List Token) : Prop where
  fills : ∃ words, Fills record body words reached (t :: as)
  keyword : OptionRecord.keyword? reached t.text = some k
  plain : ∀ a ∈ as, a.opens = false
  room : k.HasRoom as
  oneLine : OneLine (t :: (as ++ [last]))

def TakesBrace (record : τ) (body : List Token) (last : Token) : Prop :=
  ∃ reached k t as, OptionAtBrace record body last reached k t as

theorem TakesBrace.behind {s : Setting} (h : TakesBrace (OptionRecord.set record s) rest last)
    (hname : OptionRecord.keyword? record t.text = some k) (htakes : Takes k t as rest)
    (hs : k.setting? (as.map Token.text) = some s) :
    TakesBrace record (t :: (as ++ rest)) last := by
  obtain ⟨reached, k', t', as', hoption⟩ := h
  obtain ⟨words, hfills⟩ := hoption.fills
  exact ⟨reached, k', t', as', ⟨_, .option hname htakes hs hfills⟩, hoption.keyword, hoption.plain,
    hoption.room, hoption.oneLine⟩

/-- The token that stands where the block could be closed is an argument only of such an option. -/
theorem Fills.exists_optionAtBrace (h : Fills record ts words final left)
    (htokens : words.flatMap OptionWords.tokens = body ++ last :: more)
    (hlast : last.closes = true) :
    TakesBrace record body last ∧ ∃ w ∈ words, last ∈ w.args := by
  induction h generalizing body more with
  | done => simp at htokens
  | @option record k t as rest s words final left hname htakes hs hfills ih =>
    rw [List.flatMap_cons, OptionWords.tokens, List.cons_append] at htokens
    cases body with
    | nil =>
      obtain ⟨rfl, _⟩ := List.cons.inj htokens
      rw [(plain_of_keyword? hname).1] at hlast
      cases hlast
    | cons u body =>
      obtain ⟨rfl, hargs⟩ := List.cons.inj htokens
      rcases append_eq_append_cons hargs with ⟨later, hbody, hlater⟩ | ⟨later, has, _⟩
      · -- the option ends in front of the brace
        obtain ⟨hbrace, w, hw, hmem⟩ := ih hlater
        have hrest : rest = later ++ last :: (more ++ left) := by
          rw [hfills.tokens_eq, hlater, List.append_assoc, List.cons_append]
        have htakes' : Takes k t as later := by
          apply htakes.of_head?
          intro v hv
          rw [hrest]
          exact List.mem_head?_append_of_mem_head? hv
        rw [hbody]
        exact ⟨hbrace.behind hname htakes' hs, w, List.mem_cons_of_mem _ hw, hmem⟩
      · subst has
        have hline : OneLine (t :: (body ++ [last]) ++ later) := by
          simpa using htakes.oneLine
        have hroom : k.HasRoom body := by
          by_cases hk : k = .tags
          · exact Or.inl hk
          · have hlength := htakes.single hk
            simp only [List.length_append, List.length_cons] at hlength
            exact Or.inr (List.eq_nil_of_length_eq_zero (by omega))
        have hplain : ∀ a ∈ body, a.opens = false := fun a ha =>
          htakes.plain a (List.mem_append_left _ ha)
        have hmem : last ∈ body ++ last :: later := by simp
        exact ⟨⟨record, k, t, body, ⟨[], .done record (t :: body)⟩, hname, hplain, hroom,
          (List.isChain_append.mp hline).1⟩, _, List.mem_cons_self, hmem⟩

end

section block

variable {τ : Type} [OptionRecord τ] {record reached : τ} {c : Cursor} {k : Keyword}
  {brace last t : Token} {body rest as : List Token}

theorem OptionAtBrace.opens_head? (h : OptionAtBrace record body last reached k t as) :
    ∀ u ∈ body.head?, u.opens = false := by
  obtain ⟨words, hfills⟩ := h.fills
  cases hfills with
  | done =>
    intro u hu
    obtain rfl := Option.some.inj hu
    exact (plain_of_keyword? h.keyword).2
  | option hname _ _ _ =>
    intro u hu
    obtain rfl := Option.some.inj hu
    exact (plain_of_keyword? hname).2

/-- Such an option is read with the brace among its arguments. -/
theorem OptionAtBrace.readOptions_eq (h : OptionAtBrace record body last reached k t as)
    (hc : c.AtBlock brace body last rest) (hn : c.nesting = 0) :
    ∃ more left, rest = more ++ left ∧
      (∀ s, k.setting? ((as ++ last :: more).map Token.text) = some s →
        readOptions record c = readOptions (OptionRecord.set reached s)
          ⟨(brace :: body ++ last :: more).reverse ++ c.passed, left, 1⟩) ∧
      (k.setting? ((as ++ last :: more).map Token.text) = none →
        (readOptions record c).failure ≠ none) := by
  obtain ⟨words, hfills⟩ := h.fills
  obtain ⟨args, left, hargs, htakes⟩ := exists_takes k t (as ++ last :: rest)
  obtain ⟨more, rfl, hrest⟩ := htakes.args_of_room hargs.symm h.room h.plain
    (Token.not_opens_of_closes hc.closes) h.oneLine
  have hbody := hfills.tokens_eq
  generalize hpassed : (words.flatMap OptionWords.tokens).reverse ++ brace :: c.passed = passed
  have hread : readOptions record c = readOptions reached
      ⟨passed, t :: ((as ++ last :: more) ++ left), 1⟩ := by
    have happend := hfills.append (last :: rest)
    rw [hc.readOptions_eq hn h.opens_head?, happend.readOptions_eq, hpassed, hargs]
  obtain ⟨hclose, hopen⟩ := plain_of_keyword? h.keyword
  have hmove : Cursor.nextInBlock ⟨passed, t :: ((as ++ last :: more) ++ left), 1⟩ 0 =
      (true, ⟨t :: passed, (as ++ last :: more) ++ left, 1⟩) :=
    Cursor.nextInBlock_plain hclose hopen
  refine ⟨more, left, hrest, fun s hs => ?_, fun hnone hf => ?_⟩
  · rw [hread, readOptions_of_ok hmove h.keyword (Cursor.setting_of_some htakes hs), ← hpassed,
      hbody]
    simp
  · obtain ⟨_, hresult⟩ := Cursor.setting_of_takes htakes passed 1
    rw [hnone] at hresult
    cases hs : Cursor.setting ⟨t :: passed, (as ++ last :: more) ++ left, 1⟩ k with
    | mk result d =>
      rw [hs] at hresult
      cases result with
      | ok s => cases hresult
      | error e =>
        rw [hread, readOptions_of_error hmove h.keyword hs] at hf
        cases hf

theorem OptionAtBrace.last_mem_args {final : τ} {words : List OptionWords} {left : List Token}
    (h : OptionAtBrace record body last reached k t as) (hlast : last.closes = true)
    (hfills : Fills record (body ++ last :: rest) words final left)
    (hleft : ∀ u ∈ left.head?, u.closes = true) : ∃ w ∈ words, last ∈ w.args := by
  obtain ⟨before, hbefore⟩ := h.fills
  have happend := hbefore.append (last :: rest)
  obtain ⟨later, hwords, hlater⟩ := happend.split h.keyword hfills hleft
  generalize hts : t :: (as ++ last :: rest) = ts at hlater
  cases hlater with
  | done =>
    have hclose : t.closes = true := hleft t (by rw [← hts]; rfl)
    rw [(plain_of_keyword? h.keyword).1] at hclose
    cases hclose
  | @option _ k' _ args more s later _ _ hname htakes _ _ =>
    obtain ⟨rfl, hargs⟩ := List.cons.inj hts
    obtain rfl : k = k' := Option.some.inj (h.keyword.symm.trans hname)
    obtain ⟨more, rfl, _⟩ := htakes.args_of_room hargs.symm h.room h.plain
      (Token.not_opens_of_closes hlast) h.oneLine
    exact ⟨⟨t, as ++ last :: more⟩, by simp [hwords], by simp⟩

/-- A reader that does not fail reads just the body and ends on its closing brace, or else an option
takes that brace and the reader ends elsewhere. -/
theorem Cursor.AtBlock.fills_or_takesBrace (h : c.AtBlock brace body last rest) (hn : c.nesting = 0)
    (hf : (readOptions record c).failure = none) :
    ∃ words left, Fills record (body ++ last :: rest) words (readOptions record c).record left ∧
      (∀ u ∈ left.head?, u.closes = true) ∧
      (words.flatMap OptionWords.tokens = body ∧ left = last :: rest ∧
          (readOptions record c).cursor = c.past (brace :: body ++ [last]) rest ∨
        TakesBrace record body last ∧ (∃ w ∈ words, last ∈ w.args) ∧
          (readOptions record c).cursor ≠ c.past (brace :: body ++ [last]) rest) := by
  have hread := h.readOptions_eq hn (h.opens_eq_false hn hf) record
  rw [hread] at hf ⊢
  obtain ⟨words, left, hfills, hend⟩ := exists_fills rfl hf
  refine ⟨words, left, hfills, hend.head?, ?_⟩
  generalize (readOptions record ⟨brace :: c.passed, body ++ last :: rest, 1⟩).cursor = d at hend
  rcases append_eq_append_cons hfills.tokens_eq.symm with
    ⟨later, hbody, hleft⟩ | ⟨later, htaken, hrest⟩
  · left
    have hlater := h.balanced.nil_of_closes hbody hfills.opens_eq_false (by
      intro u hu
      apply hend.head?
      rw [hleft]
      exact List.mem_head?_append_of_mem_head? hu)
    subst hlater
    rw [List.append_nil] at hbody
    obtain rfl : left = last :: rest := hleft
    refine ⟨hbody.symm, rfl, ?_⟩
    rcases hend with ⟨hnil, _⟩ | ⟨close, more, hcons, _, hd⟩
    · cases hnil
    · obtain ⟨rfl, rfl⟩ := List.cons.inj hcons
      rw [hd, Cursor.past, hn, hbody]
      simp
  · right
    obtain ⟨htakes, hmem⟩ := hfills.exists_optionAtBrace htaken h.closes
    refine ⟨htakes, hmem, ?_⟩
    rintro rfl
    rcases hend with ⟨_, hd⟩ | ⟨close, more, hleft, _, hd⟩
    · have hnesting := congrArg Cursor.nesting hd
      rw [Cursor.past, hn] at hnesting
      cases hnesting
    · have hahead : rest = more := congrArg Cursor.ahead hd
      have hlength := congrArg List.length hrest
      rw [hleft, hahead, List.length_append, List.length_cons] at hlength
      omega

/-- An option with room for it takes the brace that closes the block along as an argument. Apart
from that, a reader of options that does not fail ends on this brace, outside of the block, and no
argument is a closing brace. -/
theorem Cursor.AtBlock.readOptions_closes_iff (h : c.AtBlock brace body last rest)
    (hn : c.nesting = 0) (record : τ) :
    (∀ reached k t as, OptionAtBrace record body last reached k t as →
        ∃ more left, rest = more ++ left ∧
          (∀ s, k.setting? ((as ++ last :: more).map Token.text) = some s →
            readOptions record c = readOptions (OptionRecord.set reached s)
              ⟨(brace :: body ++ last :: more).reverse ++ c.passed, left, 1⟩) ∧
          (k.setting? ((as ++ last :: more).map Token.text) = none →
            (readOptions record c).failure ≠ none)) ∧
      ((readOptions record c).failure = none →
        ∃ words left, Fills record (body ++ last :: rest) words (readOptions record c).record left ∧
          ((readOptions record c).cursor = c.past (brace :: body ++ [last]) rest ↔
            ¬TakesBrace record body last) ∧
          ((∀ w ∈ words, ∀ a ∈ w.args, a.closes = false) ↔ ¬TakesBrace record body last)) := by
  refine ⟨fun _ _ _ _ hoption => hoption.readOptions_eq h hn, fun hf => ?_⟩
  obtain ⟨words, left, hfills, hleft, ⟨hbody, _, hcursor⟩ | ⟨htakes, ⟨w, hw, hmem⟩, hcursor⟩⟩ :=
    h.fills_or_takesBrace hn hf
  · have hplain := h.balanced.closes_eq_false (hbody ▸ hfills.opens_eq_false)
    have hargs : ∀ w ∈ words, ∀ a ∈ w.args, a.closes = false := by
      intro w hw a ha
      apply hplain
      rw [← hbody]
      exact List.mem_flatMap.mpr ⟨w, hw, List.mem_cons_of_mem _ ha⟩
    have hnone : ¬TakesBrace record body last := by
      rintro ⟨reached, k, t, as, hoption⟩
      obtain ⟨w, hw, hmem⟩ := hoption.last_mem_args h.closes hfills hleft
      have hopen := hargs w hw last hmem
      rw [h.closes] at hopen
      cases hopen
    exact ⟨words, left, hfills, iff_of_true hcursor hnone, iff_of_true hargs hnone⟩
  · have hargs : ¬∀ w ∈ words, ∀ a ∈ w.args, a.closes = false := by
      intro hall
      have hopen := hall w hw last hmem
      rw [h.closes] at hopen
      cases hopen
    exact ⟨words, left, hfills, iff_of_false hcursor (not_not.mpr htakes),
      iff_of_false hargs (not_not.mpr htakes)⟩

/-- The cursor on a directive with its whole block on one line. -/
def atTagsLine : Cursor where
  passed := [⟨none, 1, "n", false⟩]
  ahead := [⟨none, 1, "\x7b", false⟩, ⟨none, 1, "tags", false⟩, ⟨none, 1, "a", false⟩,
    ⟨none, 1, "\x7d", false⟩]
  nesting := 0

theorem readOptions_atTagsLine :
    (readOptions (∅ : Settings) atTagsLine).record.tags = ["a", "\x7d"] ∧
      (readOptions (∅ : Settings) atTagsLine).cursor.nesting = 1 := by
  have hblock : Cursor.AtBlock atTagsLine ⟨none, 1, "\x7b", false⟩
      [⟨none, 1, "tags", false⟩, ⟨none, 1, "a", false⟩] ⟨none, 1, "\x7d", false⟩ [] :=
    ⟨⟨_, rfl, by decide⟩, rfl, rfl, balanced_iff_level?.mpr rfl, rfl⟩
  have hoption : OptionAtBrace (∅ : Settings) [⟨none, 1, "tags", false⟩, ⟨none, 1, "a", false⟩]
      ⟨none, 1, "\x7d", false⟩ ∅ .tags ⟨none, 1, "tags", false⟩ [⟨none, 1, "a", false⟩] :=
    { fills := ⟨[], .done _ _⟩
      keyword := by decide
      plain := by simp [Token.opens]
      room := Or.inl rfl
      oneLine := by simp [OneLine, Token.sharesLine, Source.agrees, Token.lastLine] }
  obtain ⟨more, left, hrest, hread, _⟩ :=
    (hblock.readOptions_closes_iff rfl (∅ : Settings)).1 _ _ _ _ hoption
  obtain ⟨rfl, rfl⟩ := List.append_eq_nil_iff.mp hrest.symm
  rw [hread _ rfl, readOptions_of_false (Cursor.nextInBlock_end Nat.one_pos)]
  exact ⟨rfl, rfl⟩

end block

end NodeLayers
