import NodeLayers.Proofs.GlobalOption
import NodeLayers.Proofs.MatchingBrace
import NodeLayers.Proofs.OptionLines

namespace NodeLayers

/-- The tokens of one option as it is read: the one that names it, and the arguments it takes. -/
structure OptionWords where
  name : Token
  args : List Token

def OptionWords.tokens (w : OptionWords) : List Token :=
  w.name :: w.args

/-- Option by option a record is filled from the tokens at the start, up to those that are left. -/
inductive Fills {τ : Type} [OptionRecord τ] :
    τ → List Token → List OptionWords → τ → List Token → Prop
  | done (record left) : Fills record left [] record left
  | option {record k t as rest s words final left} :
      OptionRecord.keyword? record t.text = some k → Takes k t as rest →
      k.setting? (as.map Token.text) = some s →
      Fills (OptionRecord.set record s) rest words final left →
      Fills record (t :: (as ++ rest)) (⟨t, as⟩ :: words) final left

section

variable {τ : Type} [OptionRecord τ] {record middle final : τ} {k : Keyword} {t : Token}
  {ts us left : List Token} {words more : List OptionWords} {c d : Cursor}

theorem keyword?_of_closes (record : τ) (h : t.closes = true) :
    OptionRecord.keyword? record t.text = none := by
  have htext : t.text = "\x7d" := by
    simp only [Token.closes, Bool.and_eq_true, beq_iff_eq] at h
    exact h.2
  have hnone : Keyword.ofText? "\x7d" = none := by decide
  rw [OptionRecord.keyword?, htext, hnone]
  rfl

/-- A brace names no option. -/
theorem plain_of_keyword? (h : OptionRecord.keyword? record t.text = some k) :
    t.closes = false ∧ t.opens = false := by
  constructor
  · cases hc : t.closes with
    | false => rfl
    | true => rw [keyword?_of_closes record hc] at h; cases h
  · cases ho : t.opens with
    | false => rfl
    | true => rw [keyword?_brace record ho] at h; cases h

theorem Fills.tokens_eq (h : Fills record ts words final left) :
    ts = words.flatMap OptionWords.tokens ++ left := by
  induction h with
  | done => rfl
  | option _ _ _ _ ih =>
    rw [List.flatMap_cons, OptionWords.tokens, List.append_assoc, ← ih]
    rfl

theorem Fills.trans (h : Fills record ts words middle us) (h' : Fills middle us more final left) :
    Fills record ts (words ++ more) final left := by
  induction h with
  | done => exact h'
  | option hk htakes hs _ ih => exact .option hk htakes hs (ih h')

/-- What is read as options is read so, whatever follows. -/
theorem Fills.append (h : Fills record ts words middle (t :: us)) (more : List Token) :
    Fills record (ts ++ more) words middle (t :: (us ++ more)) := by
  generalize hleft : t :: us = left at h
  induction h with
  | done record left =>
    rw [← hleft]
    exact .done record (t :: us ++ more)
  | @option record k₁ v as rest s words middle left hname htakes hs hfills ih =>
    have hmore : Takes k₁ v as (rest ++ more) := by
      apply htakes.of_head?
      intro u hu
      cases rest with
      | nil =>
        have hempty := hfills.tokens_eq
        rw [← hleft] at hempty
        simp at hempty
      | cons w rest => exact hu
    rw [List.cons_append, List.append_assoc]
    exact .option hname hmore hs (ih hleft)

/-- Read as options, tokens open no block. -/
theorem Fills.opens_eq_false (h : Fills record ts words final left) :
    ∀ u ∈ words.flatMap OptionWords.tokens, u.opens = false := by
  induction h with
  | done => simp
  | option hk htakes _ _ ih =>
    intro u hu
    rw [List.flatMap_cons] at hu
    rcases List.mem_append.mp hu with hu | hu
    · rcases List.mem_cons.mp hu with rfl | hu
      · exact (plain_of_keyword? hk).2
      · exact htakes.plain u hu
    · exact ih u hu

/-- What can be read up to a token that names an option is read on from there. -/
theorem Fills.split (h : Fills record ts words middle (t :: us))
    (hk : OptionRecord.keyword? middle t.text = some k) (h' : Fills record ts more final left)
    (hleft : ∀ u ∈ left.head?, u.closes = true) :
    ∃ later, more = words ++ later ∧ Fills middle (t :: us) later final left := by
  generalize hrest : t :: us = rest at h
  induction h generalizing more with
  | done => exact ⟨more, rfl, h'⟩
  | @option record k₁ u as rest s words middle _ hname htakes hs _ ih =>
    generalize hts : u :: (as ++ rest) = ts' at h'
    cases h' with
    | done =>
      have hclose : u.closes = true := hleft u (by rw [← hts]; rfl)
      rw [(plain_of_keyword? hname).1] at hclose
      cases hclose
    | @option _ k₂ v as' rest' s' words' _ _ hname' htakes' hs' hfills' =>
      obtain ⟨rfl, happend⟩ := List.cons.inj hts
      obtain rfl : k₁ = k₂ := Option.some.inj (hname.symm.trans hname')
      have has : as = as' := htakes.args_eq htakes' happend
      subst has
      obtain rfl : rest = rest' := List.append_cancel_left happend
      obtain rfl : s = s' := Option.some.inj (hs.symm.trans hs')
      obtain ⟨later, hmore, hlater⟩ := ih hk hfills' hrest
      exact ⟨later, by rw [hmore]; rfl, hlater⟩

theorem readOptions_congr (h : c.nextInBlock 0 = d.nextInBlock 0) :
    readOptions record c = readOptions record d := by
  cases hd : d.nextInBlock 0 with
  | mk more e =>
    rw [hd] at h
    cases more with
    | false => rw [readOptions_of_false h, readOptions_of_false hd]
    | true =>
      cases hk : OptionRecord.keyword? record e.text with
      | none => rw [readOptions_of_unknown h hk, readOptions_of_unknown hd hk]
      | some k =>
        cases hs : e.setting k with
        | mk result f =>
          cases result with
          | error _ => rw [readOptions_of_error h hk hs, readOptions_of_error hd hk hs]
          | ok _ => rw [readOptions_of_ok h hk hs, readOptions_of_ok hd hk hs]

/-- Inside a block the reader reads what fills the record, and goes on from there. -/
theorem Fills.readOptions_eq (h : Fills record ts words final left) (passed : List Token) :
    readOptions record ⟨passed, ts, 1⟩ =
      readOptions final ⟨(words.flatMap OptionWords.tokens).reverse ++ passed, left, 1⟩ := by
  induction h generalizing passed with
  | done => rfl
  | @option record k t as rest s words final left hk htakes hs _ ih =>
    obtain ⟨hc, ho⟩ := plain_of_keyword? hk
    have hmove : Cursor.nextInBlock ⟨passed, t :: (as ++ rest), 1⟩ 0 =
        (true, ⟨t :: passed, as ++ rest, 1⟩) := Cursor.nextInBlock_plain hc ho
    rw [readOptions_of_ok hmove hk (Cursor.setting_of_some htakes hs), ih]
    simp [OptionWords.tokens]

/-- Where the options of a block can end: with its closing brace, or with the tokens. -/
def OptionsEnd (left passed : List Token) (d : Cursor) : Prop :=
  left = [] ∧ d = ⟨passed, [], 1⟩ ∨
    ∃ close rest, left = close :: rest ∧ close.closes = true ∧ d = ⟨close :: passed, rest, 0⟩

theorem OptionsEnd.head? {passed : List Token} (h : OptionsEnd left passed d) :
    ∀ u ∈ left.head?, u.closes = true := by
  intro u hu
  rcases h with ⟨hnil, _⟩ | ⟨close, rest, hcons, hclose, _⟩
  · rw [hnil] at hu
    cases hu
  · rw [hcons] at hu
    obtain rfl := Option.some.inj hu
    exact hclose

/-- Inside a block a reader that does not fail has filled the record up to an end. -/
theorem exists_fills (hn : c.nesting = 1) (hf : (readOptions record c).failure = none) :
    ∃ words left, Fills record c.ahead words (readOptions record c).record left ∧
      OptionsEnd left ((words.flatMap OptionWords.tokens).reverse ++ c.passed)
        (readOptions record c).cursor := by
  fun_induction readOptions record c with
  | case1 record c d h =>
    obtain ⟨passed, ahead, n⟩ := c
    obtain rfl : n = 1 := hn
    refine ⟨[], ahead, .done record ahead, ?_⟩
    cases ahead with
    | nil =>
      rw [Cursor.nextInBlock_end Nat.one_pos] at h
      exact Or.inl ⟨rfl, (Prod.mk.inj h).2.symm⟩
    | cons u rest =>
      rw [Cursor.nextInBlock_inside Nat.one_pos] at h
      obtain ⟨hstop, hd⟩ := Prod.mk.inj h
      have hzero : u.depthAfter 1 = 0 := by simpa using hstop
      have hclose : u.closes = true := by
        cases hc : u.closes with
        | true => rfl
        | false =>
          rw [Token.depthAfter, hc] at hzero
          simp only [Bool.false_eq_true, ↓reduceIte] at hzero
          split at hzero <;> omega
      rw [hzero] at hd
      exact Or.inr ⟨u, rest, rfl, hclose, hd.symm⟩
  | case2 => cases hf
  | case3 => cases hf
  | case4 record c d h k hk s f hs _ ih =>
    obtain ⟨passed, ahead, n⟩ := c
    obtain rfl : n = 1 := hn
    cases ahead with
    | nil =>
      rw [Cursor.nextInBlock_end Nat.one_pos] at h
      cases h
    | cons t rest =>
      rw [Cursor.nextInBlock_inside Nat.one_pos] at h
      obtain ⟨_, rfl⟩ := Prod.mk.inj h
      have hname : OptionRecord.keyword? record t.text = some k := hk
      obtain ⟨hc, ho⟩ := plain_of_keyword? hname
      rw [Token.depthAfter_of_plain hc ho] at hs
      obtain ⟨as, more, rfl, htakes⟩ := exists_takes k t rest
      obtain ⟨hcursor, hresult⟩ := Cursor.setting_of_takes htakes passed 1
      rw [hs] at hcursor hresult
      obtain rfl : f = ⟨as.reverse ++ t :: passed, more, 1⟩ := hcursor
      obtain ⟨words, left, hfills, hend⟩ := ih rfl hf
      refine ⟨⟨t, as⟩ :: words, left, .option hname htakes hresult.symm hfills, ?_⟩
      simpa [OptionWords.tokens] using hend

end

section block

variable {τ : Type} [OptionRecord τ] {record : τ} {c : Cursor} {brace last : Token}
  {body rest : List Token}

/-- Options are read in a block from its brace on, as they are read inside of it. -/
theorem Cursor.AtBlock.readOptions_eq (h : c.AtBlock brace body last rest) (hn : c.nesting = 0)
    (hfirst : ∀ t ∈ body.head?, t.opens = false) (record : τ) :
    readOptions record c = readOptions record ⟨brace :: c.passed, body ++ last :: rest, 1⟩ := by
  obtain ⟨t, passed, hc, hs⟩ := h.eq
  rw [hn] at hc
  have hpassed : c.passed = t :: passed := by rw [hc]
  rw [hpassed]
  apply readOptions_congr
  rw [hc]
  cases body with
  | nil =>
    have hmove : Cursor.nextInBlock ⟨t :: passed, brace :: last :: rest, 0⟩ 0 =
        (false, ⟨last :: brace :: t :: passed, rest, 0⟩) :=
      nextInBlock_empty (Nat.le_refl 0) hs h.opens h.closes
    rw [List.nil_append, hmove, nextInBlock_close h.closes]
  | cons first inner =>
    have hplain : first.closes = false := h.balanced.closes_first
    have hmove : Cursor.nextInBlock ⟨t :: passed, brace :: first :: (inner ++ last :: rest), 0⟩ 0 =
        (true, ⟨first :: brace :: t :: passed, inner ++ last :: rest, 1⟩) :=
      nextInBlock_enter (Nat.le_refl 0) hs h.opens hplain
    rw [List.cons_append, hmove, nextInBlock_plain hplain (hfirst first rfl)]

/-- A block that begins with a brace has no options that can be read. -/
theorem Cursor.AtBlock.opens_eq_false (h : c.AtBlock brace body last rest) (hn : c.nesting = 0)
    (hf : (readOptions record c).failure = none) : ∀ t ∈ body.head?, t.opens = false := by
  intro first hfirst
  cases ho : first.opens with
  | false => rfl
  | true =>
    obtain ⟨t, passed, hc, hs⟩ := h.eq
    obtain ⟨inner, hbody⟩ := List.head?_eq_some_iff.mp hfirst
    rw [hn, hbody] at hc
    rw [hc] at hf
    exact absurd hf (readOptions_second_brace hs h.opens ho)

end block

end NodeLayers
