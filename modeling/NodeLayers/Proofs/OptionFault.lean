import NodeLayers.Proofs.FaultTokens
import NodeLayers.Proofs.OptionLines

namespace NodeLayers

/-- The argument behind a token: the next token, on its line and no brace that opens a block. -/
def Token.argument? (t : Token) (ahead : List Token) : Option Token :=
  ahead.head?.filter fun u => t.sharesLine u && !u.opens

def Keyword.needsArgument : Keyword → Bool
  | .authKey | .controlUrl | .hostname | .port | .stateDir => true
  | .ephemeral | .webui | .tags => false

/-- The text writes no flag, or no port, for this reason. -/
def Keyword.Refuses : Keyword → String → ValueFault → Prop
  | .ephemeral, s, reason | .webui, s, reason => (∀ b, s ∉ flagTexts b) ∧ reason = .notBoolean
  | .port, s, reason => PortRefused s reason
  | _, _, _ => False

inductive ArgumentFault (k : Keyword) (t : Token) (ahead : List Token) : ParseError → Prop
  | missing : k.needsArgument = true → t.argument? ahead = none →
      ArgumentFault k t ahead ⟨t.location, .missingArgument t.text⟩
  | invalid {a reason} : t.argument? ahead = some a → k.Refuses a.text reason →
      ArgumentFault k t ahead ⟨a.location, .invalidValue a.text reason⟩

namespace Cursor

variable {c d f : Cursor} {t : Token} {k : Keyword} {e : ParseError}

/-- The next stop in the block is this token. -/
structure StopsAt (c : Cursor) (t : Token) (d : Cursor) : Prop where
  next : c.nextInBlock 0 = (true, d)
  current : d.current? = some t

theorem exists_stopsAt (h : c.nextInBlock 0 = (true, d)) : ∃ t, c.StopsAt t d := by
  have hpassed : d.passed ≠ [] := by
    intro hnil
    have htokens := congrArg (fun d => d.2.tokens.length) h
    have hlength := length_ahead_of_nextInBlock h
    simp only [tokens_nextInBlock, length_tokens, hnil, List.length_nil] at htokens
    omega
  obtain ⟨t, passed, hp⟩ := List.exists_cons_of_ne_nil hpassed
  exact ⟨t, h, by rw [current?, hp]; rfl⟩

theorem nextArg?_eq (h : c.current? = some t) :
    c.nextArg? = (t.argument? c.ahead).map fun a => ⟨a :: c.passed, c.ahead.tail, c.nesting⟩ := by
  obtain ⟨passed, hc⟩ := eq_of_current? h
  rw [hc]
  cases c.ahead with
  | nil => exact nextArg?_of_nil rfl
  | cons u rest =>
    rw [List.tail_cons, Token.argument?, List.head?_cons, Option.filter_some]
    by_cases harg : t.sharesLine u = true ∧ u.opens = false
    · rw [if_pos (by simpa using harg), nextArg?_of_sharesLine harg.1 harg.2]
      rfl
    · rw [if_neg (by simpa using harg)]
      cases ho : u.opens with
      | true => exact nextArg?_of_opens ho
      | false => exact nextArg?_of_apart (by simpa [ho] using harg)

theorem missingArgument_eq (h : c.current? = some t) :
    c.missingArgument = ⟨t.location, .missingArgument t.text⟩ := by
  rw [missingArgument, fail, location_of_current? h, text_of_current? h]

theorem unknownOption_eq (h : c.current? = some t) :
    c.unknownOption = ⟨t.location, .unknownOption t.text⟩ := by
  rw [unknownOption, fail, location_of_current? h, text_of_current? h]

theorem map_eq_error_iff {α β : Type} {x : Except ParseError α × Cursor} {g : α → β} :
    x.map (·.map g) id = (.error e, f) ↔ x = (.error e, f) := by
  obtain ⟨result, d⟩ := x
  cases result with
  | ok v => exact ⟨nofun, nofun⟩
  | error e' => exact Iff.of_eq (by simp [Prod.map, Except.map])

theorem mapError_eq_error_iff {α : Type} {x : Except ValueFault α} :
    (∃ f, (x.mapError d.invalidValue, d) = (.error e, f)) ↔
      ∃ reason, x = .error reason ∧ e = d.invalidValue reason := by
  cases x with
  | ok v => simp [Except.mapError]
  | error reason => simp [Except.mapError, eq_comm]

theorem requiredArg_eq_error_iff (h : c.current? = some t) :
    (∃ f, c.requiredArg = (.error e, f)) ↔
      t.argument? c.ahead = none ∧ e = ⟨t.location, .missingArgument t.text⟩ := by
  rw [requiredArg, nextArg?_eq h, missingArgument_eq h]
  cases t.argument? c.ahead with
  | none => simp [eq_comm]
  | some a => simp

theorem flagArg_eq_error_iff (h : c.current? = some t) :
    (∃ f, c.flagArg = (.error e, f)) ↔
      ∃ a reason, t.argument? c.ahead = some a ∧
        ((∀ b, a.text ∉ flagTexts b) ∧ reason = .notBoolean) ∧
        e = ⟨a.location, .invalidValue a.text reason⟩ := by
  simp only [← readBool_eq_error_iff]
  rw [flagArg, nextArg?_eq h]
  cases t.argument? c.ahead with
  | none => simp
  | some a =>
    refine mapError_eq_error_iff.trans ?_
    simp [text, invalidValue, fail, location, current?]

theorem portArg_eq_error_iff (h : c.current? = some t) :
    (∃ f, c.portArg = (.error e, f)) ↔
      t.argument? c.ahead = none ∧ e = ⟨t.location, .missingArgument t.text⟩ ∨
        ∃ a reason, t.argument? c.ahead = some a ∧ PortRefused a.text reason ∧
          e = ⟨a.location, .invalidValue a.text reason⟩ := by
  simp only [← readPort_eq_error_iff]
  rw [portArg, nextArg?_eq h, missingArgument_eq h]
  cases t.argument? c.ahead with
  | none => simp [eq_comm]
  | some a =>
    refine mapError_eq_error_iff.trans ?_
    simp [text, invalidValue, fail, location, current?]

theorem argumentFault_iff {ahead : List Token} :
    ArgumentFault k t ahead e ↔
      (k.needsArgument = true ∧ t.argument? ahead = none ∧
        e = ⟨t.location, .missingArgument t.text⟩) ∨
      ∃ a reason, t.argument? ahead = some a ∧ k.Refuses a.text reason ∧
        e = ⟨a.location, .invalidValue a.text reason⟩ := by
  constructor
  · intro h
    cases h with
    | missing hk ha => exact Or.inl ⟨hk, ha, rfl⟩
    | @invalid a reason ha hr => exact Or.inr ⟨a, reason, ha, hr, rfl⟩
  · rintro (⟨hk, ha, rfl⟩ | ⟨a, reason, ha, hr, rfl⟩)
    · exact .missing hk ha
    · exact .invalid ha hr

/-- An option is not read just when its argument is missing or cannot be read. -/
theorem setting_eq_error_iff (h : c.current? = some t) :
    (∃ f, c.setting k = (.error e, f)) ↔ ArgumentFault k t c.ahead e := by
  rw [argumentFault_iff]
  cases k with
  | ephemeral | webui =>
    simp only [setting, map_eq_error_iff, flagArg_eq_error_iff h, Keyword.needsArgument,
      Keyword.Refuses, Bool.false_eq_true, false_and, false_or]
  | port =>
    simp only [setting, map_eq_error_iff, portArg_eq_error_iff h, Keyword.needsArgument,
      Keyword.Refuses, true_and]
  | tags => simp [setting, Keyword.needsArgument, Keyword.Refuses]
  | authKey | controlUrl | hostname | stateDir =>
    simp only [setting, map_eq_error_iff, requiredArg_eq_error_iff h, Keyword.needsArgument,
      Keyword.Refuses, true_and, false_and, and_false, exists_false, or_false]

/-- A directive begins with the token that names it. -/
theorem exists_segment_eq (h : c.current? = some t) : ∃ block, c.segment.1 = t :: block := by
  have hs := segmented (passed_ne_nil_of_current? h)
  revert hs
  generalize c.segment.1 = s, c.segment.2 = d
  intro hs
  cases hs <;> simp [h]

end Cursor

section options

variable {τ : Type} [OptionRecord τ] {record final : τ} {t : Token} {k : Keyword} {s : Setting}
  {c d f : Cursor} {e : ParseError} {ahead : List Token}

theorem keyword?_eq_some_iff {name : String} :
    OptionRecord.keyword? record name = some k ↔
      k.text = name ∧ OptionRecord.takes record k = true := by
  rw [OptionRecord.keyword?, Option.filter_eq_some_iff, Keyword.ofText?_eq_some]

/-- The record has no option of this name. -/
def LacksOption (record : τ) (t : Token) : Prop :=
  ∀ k, OptionRecord.takes record k = true → k.text ≠ t.text

theorem keyword?_eq_none_iff :
    OptionRecord.keyword? record t.text = none ↔ LacksOption record t := by
  rw [Option.eq_none_iff_forall_ne_some]
  exact ⟨fun h k hk htext => h k (keyword?_eq_some_iff.mpr ⟨htext, hk⟩),
    fun h k hk => h k (keyword?_eq_some_iff.mp hk).2 (keyword?_eq_some_iff.mp hk).1⟩

/-- What can be wrong where the name of an option is expected. -/
inductive OptionFault (record : τ) (t : Token) (ahead : List Token) : ParseError → Prop
  | unknown : LacksOption record t → OptionFault record t ahead ⟨t.location, .unknownOption t.text⟩
  | argument {k : Keyword} {e : ParseError} : k.text = t.text → OptionRecord.takes record k = true →
      ArgumentFault k t ahead e → OptionFault record t ahead e

theorem optionFault_iff (h : d.current? = some t) :
    OptionFault record t d.ahead e ↔
      (OptionRecord.keyword? record t.text = none ∧ e = d.unknownOption) ∨
        ∃ k f, OptionRecord.keyword? record t.text = some k ∧ d.setting k = (.error e, f) := by
  rw [Cursor.unknownOption_eq h]
  constructor
  · intro hf
    cases hf with
    | unknown hnone => exact Or.inl ⟨keyword?_eq_none_iff.mpr hnone, rfl⟩
    | @argument k e htext hk harg =>
      obtain ⟨f, hf⟩ := (Cursor.setting_eq_error_iff h).mpr harg
      exact Or.inr ⟨k, f, keyword?_eq_some_iff.mpr ⟨htext, hk⟩, hf⟩
  · rintro (⟨hnone, rfl⟩ | ⟨k, f, hk, hf⟩)
    · exact .unknown (keyword?_eq_none_iff.mp hnone)
    · obtain ⟨htext, htakes⟩ := keyword?_eq_some_iff.mp hk
      exact .argument htext htakes ((Cursor.setting_eq_error_iff h).mp ⟨f, hf⟩)

/-- An option of this name cannot do without an argument, and none stands behind it. -/
def LacksArgument (record : τ) (t : Token) (ahead : List Token) : Prop :=
  ∃ k : Keyword, k.text = t.text ∧ OptionRecord.takes record k = true ∧ k.needsArgument = true ∧
    t.argument? ahead = none

/-- An option of this name cannot read the argument that stands behind it. -/
def HasBadValue (record : τ) (t : Token) (ahead : List Token) : Prop :=
  ∃ (k : Keyword) (a : Token) (reason : ValueFault), k.text = t.text ∧
    OptionRecord.takes record k = true ∧ t.argument? ahead = some a ∧ k.Refuses a.text reason

def ParseError.IsUnknown (e : ParseError) : Prop :=
  ∃ name, e.fault = .unknownOption name

def ParseError.IsMissing (e : ParseError) : Prop :=
  ∃ token, e.fault = .missingArgument token

def ParseError.IsInvalid (e : ParseError) : Prop :=
  ∃ token reason, e.fault = .invalidValue token reason

theorem OptionFault.unique {e' : ParseError} (h : OptionFault record t ahead e)
    (h' : OptionFault record t ahead e') : e = e' := by
  have hd : Cursor.current? ⟨[t], ahead, 0⟩ = some t := rfl
  rcases (optionFault_iff hd).mp h with ⟨hk, rfl⟩ | ⟨k, f, hk, hf⟩
  · rcases (optionFault_iff hd).mp h' with ⟨_, rfl⟩ | ⟨k, f, hk', _⟩
    · rfl
    · cases hk.symm.trans hk'
  · rcases (optionFault_iff hd).mp h' with ⟨hk', _⟩ | ⟨k', f', hk', hf'⟩
    · cases hk.symm.trans hk'
    · cases hk.symm.trans hk'
      cases hf.symm.trans hf'
      rfl

theorem LacksArgument.optionFault (h : LacksArgument record t ahead) :
    OptionFault record t ahead ⟨t.location, .missingArgument t.text⟩ := by
  obtain ⟨k, hname, hk, hneeds, hnone⟩ := h
  exact .argument hname hk (.missing hneeds hnone)

theorem HasBadValue.optionFault (h : HasBadValue record t ahead) :
    ∃ (a : Token) (reason : ValueFault),
      OptionFault record t ahead ⟨a.location, .invalidValue a.text reason⟩ := by
  obtain ⟨k, a, reason, hname, hk, ha, hrefuses⟩ := h
  exact ⟨a, reason, .argument hname hk (.invalid ha hrefuses)⟩

theorem OptionFault.isUnknown_iff (h : OptionFault record t ahead e) :
    e.IsUnknown ↔ LacksOption record t := by
  constructor
  · rintro ⟨name, hname⟩
    cases h with
    | unknown hlacks => exact hlacks
    | argument _ _ harg => cases harg <;> cases hname
  · intro hlacks
    obtain rfl := h.unique (.unknown hlacks)
    exact ⟨_, rfl⟩

theorem OptionFault.isMissing_iff (h : OptionFault record t ahead e) :
    e.IsMissing ↔ LacksArgument record t ahead := by
  constructor
  · rintro ⟨token, htoken⟩
    cases h with
    | unknown => cases htoken
    | @argument k e hname hk harg =>
      cases harg with
      | missing hneeds hnone => exact ⟨k, hname, hk, hneeds, hnone⟩
      | invalid => cases htoken
  · intro hlacks
    obtain rfl := h.unique hlacks.optionFault
    exact ⟨_, rfl⟩

theorem OptionFault.isInvalid_iff (h : OptionFault record t ahead e) :
    e.IsInvalid ↔ HasBadValue record t ahead := by
  constructor
  · rintro ⟨token, reason, htoken⟩
    cases h with
    | unknown => cases htoken
    | @argument k e hname hk harg =>
      cases harg with
      | missing => cases htoken
      | @invalid a reason ha hrefuses => exact ⟨k, a, reason, hname, hk, ha, hrefuses⟩
  · intro hbad
    obtain ⟨a, reason, hfault⟩ := hbad.optionFault
    obtain rfl := h.unique hfault
    exact ⟨_, _, rfl⟩

/-- At the next stop stands an option of the record, which with the arguments that it takes says
this. -/
inductive Cursor.GivesOption (record : τ) (c : Cursor) : Setting → Cursor → Prop
  | intro {k : Keyword} {t : Token} {d : Cursor} {as rest : List Token} {s : Setting} :
      c.StopsAt t d → k.text = t.text → OptionRecord.takes record k = true →
      d.ahead = as ++ rest → Takes k t as rest → k.setting? (as.map Token.text) = some s →
      GivesOption record c s ⟨as.reverse ++ d.passed, rest, d.nesting⟩

theorem Cursor.givesOption_iff :
    c.GivesOption record s f ↔
      ∃ d k, c.nextInBlock 0 = (true, d) ∧ OptionRecord.keyword? record d.text = some k ∧
        d.setting k = (.ok s, f) := by
  constructor
  · rintro ⟨hstop, htext, hk, hahead, htakes, hs⟩
    rename_i k t d as rest
    obtain ⟨passed, hd⟩ := eq_of_current? hstop.current
    have hpassed : d.passed = t :: passed := by rw [hd]
    refine ⟨d, k, hstop.next, ?_, ?_⟩
    · rw [text_of_current? hstop.current]
      exact keyword?_eq_some_iff.mpr ⟨htext, hk⟩
    · rw [hpassed, hd, hahead]
      exact setting_of_some htakes hs
  · rintro ⟨d, k, hnext, hk, hs⟩
    obtain ⟨t, hstop⟩ := exists_stopsAt hnext
    rw [text_of_current? hstop.current] at hk
    obtain ⟨htext, hrecord⟩ := keyword?_eq_some_iff.mp hk
    obtain ⟨passed, hd⟩ := eq_of_current? hstop.current
    have hpassed : d.passed = t :: passed := by rw [hd]
    -- whatever arguments the keyword takes, the reader has taken the same
    obtain ⟨as, rest, hahead, htakes⟩ := exists_takes k t d.ahead
    obtain ⟨hcursor, hresult⟩ := setting_of_takes htakes passed d.nesting
    rw [← hahead, ← hd, hs] at hcursor hresult
    obtain rfl : f = ⟨as.reverse ++ d.passed, rest, d.nesting⟩ := by rw [hpassed]; exact hcursor
    exact .intro hstop htext hrecord hahead htakes hresult.symm

end options

/-- From here on these are given one after the other, and each is applied before the next. -/
inductive Gives {τ σ : Type} (step : τ → Cursor → σ → Cursor → Prop) (apply : τ → σ → τ) :
    τ → Cursor → List σ → Cursor → Prop
  | nil (record c) : Gives step apply record c [] c
  | cons {record c x d xs f} : step record c x d → Gives step apply (apply record x) d xs f →
      Gives step apply record c (x :: xs) f

theorem Gives.run {τ σ : Type} {step : τ → Cursor → σ → Cursor → Prop} {apply : τ → σ → τ}
    {read : τ → Cursor → Filling τ} {record : τ} {c d : Cursor} {xs : List σ}
    (h : Gives step apply record c xs d)
    (hstep : ∀ record c x d, step record c x d → read record c = read (apply record x) d) :
    read record c = read (xs.foldl apply record) d := by
  induction h with
  | nil => rfl
  | cons hs _ ih => rw [hstep _ _ _ _ hs, ih, List.foldl_cons]

section options

variable {τ : Type} [OptionRecord τ] {record : τ} {c d f : Cursor} {s : Setting}
  {settings : List Setting} {o : Option ParseError}

abbrev GivesOptions (record : τ) (c : Cursor) (settings : List Setting) (d : Cursor) : Prop :=
  Gives (fun record c => c.GivesOption record) OptionRecord.set record c settings d

/-- The options end here, or with a fault. -/
inductive OptionsStop (record : τ) (c : Cursor) : Option ParseError → Prop
  | done {d : Cursor} : c.nextInBlock 0 = (false, d) → OptionsStop record c none
  | fault {t : Token} {d : Cursor} {e : ParseError} : c.StopsAt t d →
      OptionFault record t d.ahead e → OptionsStop record c (some e)

/-- These options can be read from here on, and then no more. -/
def OptionsRead (record : τ) (c : Cursor) (settings : List Setting) (o : Option ParseError) :
    Prop :=
  ∃ d, GivesOptions record c settings d ∧ OptionsStop (settings.foldl OptionRecord.set record) d o

theorem readOptions_of_givesOption (h : c.GivesOption record s d) :
    readOptions record c = readOptions (OptionRecord.set record s) d := by
  obtain ⟨f, k, hnext, hk, hs⟩ := Cursor.givesOption_iff.mp h
  exact readOptions_of_ok hnext hk hs

theorem OptionsStop.readOptions_eq (h : OptionsStop record c o) :
    ∃ f, readOptions record c = ⟨record, f, o⟩ := by
  cases h with
  | @done d hend => exact ⟨d, readOptions_of_false hend⟩
  | @fault t d e hstop hfault =>
    have htext := Cursor.text_of_current? hstop.current
    rcases (optionFault_iff hstop.current).mp hfault with ⟨hk, rfl⟩ | ⟨k, f, hk, hs⟩
    · exact ⟨d, readOptions_of_unknown hstop.next (by rw [htext]; exact hk)⟩
    · exact ⟨f, readOptions_of_error hstop.next (by rw [htext]; exact hk) hs⟩

theorem exists_optionsRead (record : τ) (c : Cursor) :
    ∃ settings, OptionsRead record c settings (readOptions record c).failure ∧
      (readOptions record c).record = settings.foldl OptionRecord.set record := by
  fun_induction readOptions record c with
  | case1 record c d h => exact ⟨[], ⟨c, .nil record c, .done h⟩, rfl⟩
  | case2 record c d h hk =>
    obtain ⟨t, hstop⟩ := Cursor.exists_stopsAt h
    rw [Cursor.text_of_current? hstop.current] at hk
    have hfault := (optionFault_iff hstop.current).mpr (Or.inl ⟨hk, rfl⟩)
    exact ⟨[], ⟨c, .nil record c, .fault hstop hfault⟩, rfl⟩
  | case3 record c d h k hk e f hs =>
    obtain ⟨t, hstop⟩ := Cursor.exists_stopsAt h
    rw [Cursor.text_of_current? hstop.current] at hk
    have hfault := (optionFault_iff hstop.current).mpr (Or.inr ⟨k, f, hk, hs⟩)
    exact ⟨[], ⟨c, .nil record c, .fault hstop hfault⟩, rfl⟩
  | case4 record c d h k hk s f hs _ ih =>
    obtain ⟨settings, ⟨g, hgives, hstop⟩, hrecord⟩ := ih
    have hgive := Cursor.givesOption_iff.mpr ⟨d, k, h, hk, hs⟩
    exact ⟨s :: settings, ⟨g, .cons hgive hgives, hstop⟩, hrecord⟩

theorem OptionsRead.readOptions_eq (h : OptionsRead record c settings o) :
    ∃ f, readOptions record c = ⟨settings.foldl OptionRecord.set record, f, o⟩ := by
  obtain ⟨d, hgives, hstop⟩ := h
  rw [hgives.run fun _ _ _ _ => readOptions_of_givesOption]
  exact hstop.readOptions_eq

end options

end NodeLayers
