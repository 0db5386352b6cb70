import NodeLayers.Proofs.OptionLines
import NodeLayers.Proofs.WrittenForm

namespace NodeLayers

def Setting.args : Setting → Line
  | .authKey v | .controlUrl v | .hostname v | .stateDir v => [.quoted v]
  | .ephemeral b | .webui b => [.bare (if b then "true" else "false")]
  | .port p => [.bare (toString p.toNat)]
  | .tags vs => vs.map .quoted

def Setting.words (s : Setting) : Line :=
  .bare s.keyword.text :: s.args

/-- A word that is no brace. -/
def Word.Plain : Word → Prop
  | .bare s => s ≠ "\x7b" ∧ s ≠ "\x7d"
  | .quoted _ => True

theorem Word.plain_token {w : Word} (h : w.Plain) (source : Source) (n : Nat) :
    (w.token source n).closes = false ∧ (w.token source n).opens = false := by
  cases w with
  | bare s => simp [Word.token, Token.closes, Token.opens, h.1, h.2]
  | quoted s => exact ⟨rfl, rfl⟩

theorem Line.plain_place {ws : Line} (h : ∀ w ∈ ws, w.Plain) (source : Source) (n : Nat) :
    ∀ t ∈ ws.place source n, t.closes = false ∧ t.opens = false := by
  induction ws generalizing n with
  | nil => intro t ht; cases ht
  | cons w ws ih =>
    intro t ht
    rcases List.mem_cons.mp ht with rfl | hm
    · exact Word.plain_token (h w List.mem_cons_self) source n
    · exact ih (fun v hv => h v (List.mem_cons_of_mem w hv)) _ t hm

/-- Characters that a bare word can have, none of them its own mark at the start. -/
def isBare : List Char → Bool
  | [] => false
  | c :: cs =>
    !isBlank c && c != '#' && (Quote.ofMark? c).isNone && cs.all (!isBlank ·)

theorem Word.proper_bare {s : String} (h : isBare s.toList = true) : (Word.bare s).Proper := by
  rw [Word.Proper, Word.piece]
  cases hs : s.toList with
  | nil => rw [hs] at h; cases h
  | cons c cs =>
    rw [hs] at h
    simpa [isBare, Piece.Proper, and_assoc] using h

theorem Keyword.word_text (k : Keyword) :
    (Word.bare k.text).Proper ∧ (Word.bare k.text).Plain := by
  constructor
  · apply Word.proper_bare
    cases k <;> decide +kernel
  · cases k <;> exact ⟨by decide, by decide⟩

theorem isBlank_of_isDigit {c : Char} (h : c.isDigit = true) : isBlank c = false := by
  have hrange : 48 ≤ c.toNat ∧ c.toNat ≤ 57 := by
    simpa [Char.isDigit, Char.le_def, UInt32.le_iff_toNat_le] using h
  simp only [isBlank]
  generalize c.toNat = n at hrange
  simp
  omega

theorem isBare_of_isDigit {cs : List Char} (hne : cs ≠ []) (h : ∀ c ∈ cs, c.isDigit = true) :
    isBare cs = true := by
  cases cs with
  | nil => exact absurd rfl hne
  | cons c cs =>
    have hc := h c List.mem_cons_self
    have hhash : c ≠ '#' := by
      rintro rfl
      revert hc
      decide
    have hmark : Quote.ofMark? c = none := by
      unfold Quote.ofMark?
      rw [if_neg, if_neg]
      · rintro rfl
        revert hc
        decide
      · rintro rfl
        revert hc
        decide
    have hrest : ∀ d ∈ cs, isBlank d = false :=
      fun d hd => isBlank_of_isDigit (h d (List.mem_cons_of_mem c hd))
    simpa [isBare, isBlank_of_isDigit hc, hhash, hmark] using hrest

theorem port_word (p : UInt16) :
    (Word.bare (toString p.toNat)).Proper ∧ (Word.bare (toString p.toNat)).Plain := by
  constructor
  · apply Word.proper_bare
    have hlist : (toString p.toNat).toList = Nat.toDigits 10 p.toNat := by simp
    rw [hlist]
    exact isBare_of_isDigit Nat.toDigits_ne_nil
      fun c hc => Nat.isDigit_of_mem_toDigits (by decide) (by decide) hc
  · -- a brace is no port, so the digits of a port are no brace
    have hread := readPort_repr p
    have hopen : (readPort "\x7b").isOk = false := by decide +kernel
    have hclose : (readPort "\x7d").isOk = false := by decide +kernel
    constructor
    · intro h
      rw [← h, hread] at hopen
      cases hopen
    · intro h
      rw [← h, hread] at hclose
      cases hclose

theorem Setting.word_args {s : Setting} {w : Word} (h : w ∈ s.args) : w.Proper ∧ w.Plain := by
  have hquoted : ∀ v, w = .quoted v → w.Proper ∧ w.Plain := by
    rintro v rfl
    exact ⟨Word.proper_quoted v, trivial⟩
  have hflag : ∀ b : Bool, w = .bare (if b then "true" else "false") → w.Proper ∧ w.Plain := by
    rintro b rfl
    cases b <;> exact ⟨Word.proper_bare (by decide +kernel), by decide, by decide⟩
  cases s with
  | authKey v => exact hquoted v (List.mem_singleton.mp h)
  | controlUrl v => exact hquoted v (List.mem_singleton.mp h)
  | ephemeral b => exact hflag b (List.mem_singleton.mp h)
  | hostname v => exact hquoted v (List.mem_singleton.mp h)
  | port p =>
    obtain rfl := List.mem_singleton.mp h
    exact port_word p
  | stateDir v => exact hquoted v (List.mem_singleton.mp h)
  | webui b => exact hflag b (List.mem_singleton.mp h)
  | tags vs =>
    obtain ⟨v, _, hv⟩ := List.mem_map.mp h
    exact hquoted v hv.symm

theorem Setting.word_words {s : Setting} {w : Word} (h : w ∈ s.words) : w.Proper ∧ w.Plain := by
  rcases List.mem_cons.mp h with rfl | ha
  · exact s.keyword.word_text
  · exact Setting.word_args ha

theorem Setting.setting?_args (s : Setting) :
    s.keyword.setting? (s.args.map Word.text) = some s := by
  have hflag : ∀ b : Bool, flag? (if b then "true" else "false") = some b := by
    intro b
    cases b <;> exact flag?_eq_some_iff.mpr (by decide)
  have hport : ∀ p : UInt16, port? (toString p.toNat) = some p := by
    intro p
    rw [← toOption_readPort, readPort_repr]
    rfl
  cases s with
  | ephemeral b =>
    simp only [Setting.keyword, Setting.args, List.map_cons, List.map_nil, Word.text,
      Keyword.setting?, hflag]
    rfl
  | webui b =>
    simp only [Setting.keyword, Setting.args, List.map_cons, List.map_nil, Word.text,
      Keyword.setting?, hflag]
    rfl
  | port p =>
    simp only [Setting.keyword, Setting.args, List.map_cons, List.map_nil, Word.text,
      Keyword.setting?, hport]
    rfl
  | tags vs =>
    have htexts : (vs.map Word.quoted).map Word.text = vs := by simp [Function.comp_def, Word.text]
    simp only [Setting.keyword, Setting.args, Keyword.setting?, htexts]
  | _ => rfl

theorem Setting.onLine_place (s : Setting) (source : Source) (n : Nat) :
    s.OnLine (s.words.place source n) := by
  refine ⟨_, _, rfl, Line.oneLine_place source n s.words,
    Line.plain_place (fun w hw => (Setting.word_words hw).2) source n, rfl, ?_⟩
  rw [Line.texts_place]
  exact s.setting?_args

theorem options_place (settings : List Setting) (source : Source) (n : Nat) :
    List.Forall₂ Setting.OnLine settings
      (placeGroups source n (settings.map fun s => [s.words])) := by
  induction settings generalizing n with
  | nil => exact .nil
  | cons s settings ih =>
    have hline : place source n [s.words] = s.words.place source n := List.append_nil _
    rw [List.map_cons, placeGroups, hline]
    exact .cons (s.onLine_place source n) (ih _)

theorem flatten_words (settings : List Setting) :
    (settings.map fun s => [s.words]).flatten = settings.map Setting.words := by
  rw [← List.flatMap_def, List.map_eq_flatMap]

theorem optionBlock_place (settings : List Setting) {brace : Token} (hb : brace.opens = true)
    (source : Source) (n : Nat) :
    OptionBlock settings brace (placeGroups source n (settings.map fun s => [s.words]))
      (closeAt source (n + height (settings.map Setting.words))) := by
  refine ⟨hb, closes_closeAt _ _, options_place settings source n, laid_placeGroups ?_⟩
  intro u hu
  obtain rfl := Option.some.inj hu
  rw [flatten_words]
  exact Nat.le_refl _

end NodeLayers
