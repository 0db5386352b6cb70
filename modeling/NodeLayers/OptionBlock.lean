import NodeLayers.Keyword
import NodeLayers.OptionValue
import NodeLayers.Segment

namespace NodeLayers

class OptionRecord (τ : Type) where
  takes : τ → Keyword → Bool
  set : τ → Setting → τ

def OptionRecord.keyword? {τ : Type} [OptionRecord τ] (record : τ) (s : String) :
    Option Keyword :=
  (Keyword.ofText? s).filter (takes record)

namespace Cursor

def requiredArg (c : Cursor) : Except ParseError String × Cursor :=
  match c.nextArg? with
  | none => (.error c.missingArgument, c)
  | some d => (.ok d.text, d)

/-- A flag without an argument is switched on. -/
def flagArg (c : Cursor) : Except ParseError Bool × Cursor :=
  match c.nextArg? with
  | none => (.ok true, c)
  | some d => ((readBool d.text).mapError d.invalidValue, d)

def portArg (c : Cursor) : Except ParseError UInt16 × Cursor :=
  match c.nextArg? with
  | none => (.error c.missingArgument, c)
  | some d => ((readPort d.text).mapError d.invalidValue, d)

/-- The option that the current token names, with the arguments on its line. -/
def setting (c : Cursor) : Keyword → Except ParseError Setting × Cursor
  | .authKey => c.requiredArg.map (·.map .authKey) id
  | .controlUrl => c.requiredArg.map (·.map .controlUrl) id
  | .ephemeral => c.flagArg.map (·.map .ephemeral) id
  | .hostname => c.requiredArg.map (·.map .hostname) id
  | .port => c.portArg.map (·.map .port) id
  | .stateDir => c.requiredArg.map (·.map .stateDir) id
  | .webui => c.flagArg.map (·.map .webui) id
  | .tags => (.ok (.tags (c.args.1.map Token.text)), c.args.2)

theorem length_ahead_requiredArg_le (c : Cursor) :
    c.requiredArg.2.ahead.length ≤ c.ahead.length := by
  unfold requiredArg
  split
  next => exact Nat.le_refl _
  next d h => have := length_ahead_of_nextArg? h; simp only; omega

theorem length_ahead_flagArg_le (c : Cursor) : c.flagArg.2.ahead.length ≤ c.ahead.length := by
  unfold flagArg
  split
  next => exact Nat.le_refl _
  next d h => have := length_ahead_of_nextArg? h; simp only; omega

theorem length_ahead_portArg_le (c : Cursor) : c.portArg.2.ahead.length ≤ c.ahead.length := by
  unfold portArg
  split
  next => exact Nat.le_refl _
  next d h => have := length_ahead_of_nextArg? h; simp only; omega

theorem length_ahead_setting_le (c : Cursor) (k : Keyword) :
    (c.setting k).2.ahead.length ≤ c.ahead.length := by
  have hr := length_ahead_requiredArg_le c
  have hf := length_ahead_flagArg_le c
  have hp := length_ahead_portArg_le c
  have ha := length_ahead_args_le c
  cases k <;> simpa [setting]

end Cursor

/-- A record as far as it was filled, the cursor where filling stopped, and why it failed if it
did. -/
structure Filling (τ : Type) where
  record : τ
  cursor : Cursor
  failure : Option ParseError

/-- Fills a record from the option lines of the block that opens on the current line. -/
def readOptions {τ : Type} [OptionRecord τ] (record : τ) (c : Cursor) : Filling τ :=
  match h : c.nextInBlock 0 with
  | (false, d) => ⟨record, d, none⟩
  | (true, d) =>
    match OptionRecord.keyword? record d.text with
    | none => ⟨record, d, some d.unknownOption⟩
    | some k =>
      match hs : d.setting k with
      | (.error e, f) => ⟨record, f, some e⟩
      | (.ok s, f) =>
        have : f.ahead.length < c.ahead.length := by
          have hd := Cursor.length_ahead_of_nextInBlock h
          have hf := Cursor.length_ahead_setting_le d k
          simp only [hs] at hf
          omega
        readOptions (OptionRecord.set record s) f
termination_by c.ahead.length

section readOptions

variable {τ : Type} [OptionRecord τ] {record : τ} {c d f : Cursor} {k : Keyword}

theorem readOptions_of_false (h : c.nextInBlock 0 = (false, d)) :
    readOptions record c = ⟨record, d, none⟩ := by
  rw [readOptions]
  split
  next he => cases h.symm.trans he; rfl
  next he => cases h.symm.trans he

theorem readOptions_of_unknown (h : c.nextInBlock 0 = (true, d))
    (hk : OptionRecord.keyword? record d.text = none) :
    readOptions record c = ⟨record, d, some d.unknownOption⟩ := by
  rw [readOptions]
  split
  next he => cases h.symm.trans he
  next he =>
    cases h.symm.trans he
    split
    next => rfl
    next hs => cases hk.symm.trans hs

theorem readOptions_of_error {e : ParseError} (h : c.nextInBlock 0 = (true, d))
    (hk : OptionRecord.keyword? record d.text = some k) (hs : d.setting k = (.error e, f)) :
    readOptions record c = ⟨record, f, some e⟩ := by
  rw [readOptions]
  split
  next he => cases h.symm.trans he
  next he =>
    cases h.symm.trans he
    split
    next hn => cases hk.symm.trans hn
    next hj =>
      cases hk.symm.trans hj
      split
      next hf => cases hs.symm.trans hf; rfl
      next hf => cases hs.symm.trans hf

theorem readOptions_of_ok {s : Setting} (h : c.nextInBlock 0 = (true, d))
    (hk : OptionRecord.keyword? record d.text = some k) (hs : d.setting k = (.ok s, f)) :
    readOptions record c = readOptions (OptionRecord.set record s) f := by
  rw [readOptions]
  split
  next he => cases h.symm.trans he
  next he =>
    cases h.symm.trans he
    split
    next hn => cases hk.symm.trans hn
    next hj =>
      cases hk.symm.trans hj
      split
      next hf => cases hs.symm.trans hf
      next hf => cases hs.symm.trans hf; rfl

end readOptions

theorem length_ahead_readOptions_le {τ : Type} [OptionRecord τ] (record : τ) (c : Cursor) :
    (readOptions record c).cursor.ahead.length ≤ c.ahead.length := by
  fun_induction readOptions record c with
  | case1 record c d h =>
    have := Cursor.length_ahead_nextInBlock_le c 0
    simpa [h] using this
  | case2 record c d h =>
    have := Cursor.length_ahead_of_nextInBlock h
    exact Nat.le_of_lt this
  | case3 record c d h k hk e f hs =>
    have := Cursor.length_ahead_of_nextInBlock h
    have := Cursor.length_ahead_setting_le d k
    simp only [hs] at this
    simp only
    omega
  | case4 record c d h k hk s f hs _ ih =>
    have := Cursor.length_ahead_of_nextInBlock h
    have := Cursor.length_ahead_setting_le d k
    simp only [hs] at this
    omega

end NodeLayers
