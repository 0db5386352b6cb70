import NodeLayers.Configuration
import NodeLayers.Proofs.Likeness

namespace NodeLayers

variable {r : Token → Token → Prop} {l : Location → Location → Prop}

/-- Readings of the same value or fault, with cursors that stand alike. -/
structure SameReading (r : Token → Token → Prop) (l : Location → Location → Prop) {α : Type}
    (x y : Except ParseError α × Cursor) : Prop where
  result : Agree l Eq x.1 y.1
  cursor : Cursor.Follows r x.2 y.2

theorem SameReading.map {α β : Type} {x y : Except ParseError α × Cursor}
    (h : SameReading r l x y) (f : α → β) :
    SameReading r l (x.map (·.map f) id) (y.map (·.map f) id) :=
  ⟨h.result.map fun _ _ hab => congrArg f hab, h.cursor⟩

theorem SameReading.of_ok {α : Type} {x y : Except ParseError α × Cursor} {a : α} {f : Cursor}
    (h : SameReading r l x y) (hx : x = (.ok a, f)) :
    ∃ f', y = (.ok a, f') ∧ Cursor.Follows r f f' := by
  subst hx
  obtain ⟨hresult, hcursor⟩ := h
  obtain ⟨result, f'⟩ := y
  cases hresult with
  | ok hab => subst hab; exact ⟨f', rfl, hcursor⟩

theorem SameReading.of_error {α : Type} {x y : Except ParseError α × Cursor} {e : ParseError}
    {f : Cursor} (h : SameReading r l x y) (hx : x = (.error e, f)) :
    ∃ e' f', y = (.error e', f') ∧ ParseError.Like l e e' ∧ Cursor.Follows r f f' := by
  subst hx
  obtain ⟨hresult, hcursor⟩ := h
  obtain ⟨result, f'⟩ := y
  cases hresult with
  | error he => exact ⟨_, f', rfl, he, hcursor⟩

/-- The same record, filled as far and stopped by the same fault if by any. -/
structure SameFilling (r : Token → Token → Prop) (l : Location → Location → Prop) {τ : Type}
    (x y : Filling τ) : Prop where
  record : x.record = y.record
  cursor : Cursor.Follows r x.cursor y.cursor
  failure : Option.Rel (ParseError.Like l) x.failure y.failure

theorem Alike.texts (same : Alike r l) {ts us : List Token} (h : List.Forall₂ r ts us) :
    ts.map Token.text = us.map Token.text := by
  induction h with
  | nil => rfl
  | cons hr _ ih => rw [List.map_cons, List.map_cons, same.text hr, ih]

variable (same : Alike r l) {c c' d d' : Cursor}

namespace Cursor

theorem Follows.nextD (h : Follows r c c') :
    Follows r (c.next?.getD c) (c'.next?.getD c') := by
  cases hn : c.next? with
  | none => rw [h.next?_none hn]; exact h
  | some d =>
    obtain ⟨d', hd', hf⟩ := h.next?_some hn
    rw [hd']
    exact hf

include same

theorem Follows.requiredArg (h : Follows r c c') :
    SameReading r l c.requiredArg c'.requiredArg := by
  rw [Cursor.requiredArg, Cursor.requiredArg]
  cases hn : c.nextArg? with
  | none =>
    rw [h.nextArg?_none same hn]
    exact ⟨.error (h.missingArgument same), h⟩
  | some d =>
    obtain ⟨d', hd', hf⟩ := h.nextArg?_some same hn
    rw [hd']
    exact ⟨.ok (hf.text same), hf⟩

theorem Follows.flagArg (h : Follows r c c') : SameReading r l c.flagArg c'.flagArg := by
  rw [Cursor.flagArg, Cursor.flagArg]
  cases hn : c.nextArg? with
  | none =>
    rw [h.nextArg?_none same hn]
    exact ⟨.ok rfl, h⟩
  | some d =>
    obtain ⟨d', hd', hf⟩ := h.nextArg?_some same hn
    rw [hd']
    refine ⟨?_, hf⟩
    simp only [hf.text same]
    cases readBool d'.text with
    | error reason => exact .error (hf.invalidValue same reason)
    | ok b => exact .ok rfl

theorem Follows.portArg (h : Follows r c c') : SameReading r l c.portArg c'.portArg := by
  rw [Cursor.portArg, Cursor.portArg]
  cases hn : c.nextArg? with
  | none =>
    rw [h.nextArg?_none same hn]
    exact ⟨.error (h.missingArgument same), h⟩
  | some d =>
    obtain ⟨d', hd', hf⟩ := h.nextArg?_some same hn
    rw [hd']
    refine ⟨?_, hf⟩
    simp only [hf.text same]
    cases readPort d'.text with
    | error reason => exact .error (hf.invalidValue same reason)
    | ok port => exact .ok rfl

theorem Follows.setting (h : Follows r c c') (k : Keyword) :
    SameReading r l (c.setting k) (c'.setting k) := by
  have hrequired := h.requiredArg same
  have hflag := h.flagArg same
  cases k with
  | authKey => exact hrequired.map _
  | controlUrl => exact hrequired.map _
  | ephemeral => exact hflag.map _
  | hostname => exact hrequired.map _
  | port => exact (h.portArg same).map _
  | stateDir => exact hrequired.map _
  | webui => exact hflag.map _
  | tags =>
    obtain ⟨hargs, hlast⟩ := h.args same
    exact ⟨.ok (congrArg Setting.tags (same.texts hargs)), hlast⟩

end Cursor

include same

theorem Cursor.Follows.readOptions {τ : Type} [OptionRecord τ] (record : τ)
    (h : Cursor.Follows r c c') :
    SameFilling r l (NodeLayers.readOptions record c) (NodeLayers.readOptions record c') := by
  fun_induction NodeLayers.readOptions record c generalizing c' with
  | case1 record c d hd =>
    obtain ⟨d', hd', hf⟩ := h.nextInBlock_eq same hd
    rw [readOptions_of_false hd']
    exact ⟨rfl, hf, .none⟩
  | case2 record c d hd hk =>
    obtain ⟨d', hd', hf⟩ := h.nextInBlock_eq same hd
    rw [hf.text same] at hk
    rw [readOptions_of_unknown hd' hk]
    exact ⟨rfl, hf, .some (hf.unknownOption same)⟩
  | case3 record c d hd k hk e f hs =>
    obtain ⟨d', hd', hf⟩ := h.nextInBlock_eq same hd
    obtain ⟨e', f', hs', he, hf'⟩ := (hf.setting same k).of_error hs
    rw [hf.text same] at hk
    rw [readOptions_of_error hd' hk hs']
    exact ⟨rfl, hf', .some he⟩
  | case4 record c d hd k hk s f hs _ ih =>
    obtain ⟨d', hd', hf⟩ := h.nextInBlock_eq same hd
    obtain ⟨f', hs', hf'⟩ := (hf.setting same k).of_ok hs
    rw [hf.text same] at hk
    rw [readOptions_of_ok hd' hk hs']
    exact ih hf'

theorem Node.sameReading (h : Cursor.Follows r c c') :
    SameReading r l (Node.read c) (Node.read c') := by
  unfold Node.read
  rw [← h.opensBlock same]
  split
  next =>
    obtain ⟨hsegment, hlast⟩ := h.segment same
    have hinside := (Cursor.follows_ofTokens hsegment).nextD
    obtain ⟨hrecord, _, hfailure⟩ := hinside.readOptions same (∅ : Settings)
    simp only [Cursor.enterSegment]
    revert hfailure
    generalize (readOptions (∅ : Settings) _).failure = x,
      (readOptions (∅ : Settings) _).failure = y
    intro hfailure
    cases hfailure with
    | none => exact ⟨.ok (by rw [h.text same, hrecord]), hlast⟩
    | some he => exact ⟨.error he, hlast⟩
  next => exact ⟨.error (h.missingArgument same), h⟩

namespace App

theorem sameReading_readEntry (a : App) (h : Cursor.Follows r c c') :
    SameReading r l (a.readEntry c) (a.readEntry c') := by
  unfold readEntry
  rw [← h.text same]
  split
  next k _ => exact (h.setting same k).map _
  next => exact (Node.sameReading same h).map _

theorem sameFilling_readBlock (a : App) (h : Cursor.Follows r c c') :
    SameFilling r l (a.readBlock c) (a.readBlock c') := by
  fun_induction readBlock a c generalizing c' with
  | case1 a c d hd =>
    obtain ⟨d', hd', hf⟩ := h.nextInBlock_eq same hd
    rw [readBlock_of_false hd']
    exact ⟨rfl, hf, .none⟩
  | case2 a c d hd e f hs =>
    obtain ⟨d', hd', hf⟩ := h.nextInBlock_eq same hd
    obtain ⟨e', f', hs', he, hf'⟩ := (sameReading_readEntry same a hf).of_error hs
    rw [readBlock_of_error hd' hs']
    exact ⟨rfl, hf', .some he⟩
  | case3 a c d hd b f hs _ ih =>
    obtain ⟨d', hd', hf⟩ := h.nextInBlock_eq same hd
    obtain ⟨f', hs', hf'⟩ := (sameReading_readEntry same a hf).of_ok hs
    rw [readBlock_of_ok hd' hs']
    exact ih hf'

theorem sameReading (h : Cursor.Follows r c c') : SameReading r l (App.read c) (App.read c') := by
  unfold read
  cases hn : c.next? with
  | none =>
    rw [h.next?_none hn]
    exact ⟨.error (h.missingArgument same), h⟩
  | some d =>
    obtain ⟨d', hd', hf⟩ := h.next?_some hn
    obtain ⟨hrecord, hcursor, hfailure⟩ := sameFilling_readBlock same ∅ hf
    rw [hd']
    simp only
    revert hfailure
    generalize (readBlock ∅ d).failure = x, (readBlock ∅ d').failure = y
    intro hfailure
    cases hfailure with
    | none => exact ⟨.ok hrecord, hcursor⟩
    | some he => exact ⟨.error he, hcursor⟩

end App

namespace Directive

theorem sameReading_readRest (nodeName : String) (h : Cursor.Follows r c c') :
    SameReading r l (readRest nodeName c) (readRest nodeName c') := by
  unfold readRest
  cases hn : c.nextArg? with
  | some surplus =>
    obtain ⟨surplus', hs', hsurplus⟩ := h.nextArg?_some same hn
    rw [hs']
    exact ⟨.error (hsurplus.missingArgument same), hsurplus⟩
  | none =>
    obtain ⟨hrecord, hcursor, hfailure⟩ := h.readOptions same (∅ : Settings)
    rw [h.nextArg?_none same hn]
    simp only
    revert hfailure
    generalize (readOptions (∅ : Settings) c).failure = x,
      (readOptions (∅ : Settings) c').failure = y
    intro hfailure
    cases hfailure with
    | none => exact ⟨.ok (by rw [hrecord]), hcursor⟩
    | some he => exact ⟨.error he, hcursor⟩

theorem sameReading_readOne (start : Directive) (h : Cursor.Follows r c c') :
    SameReading r l (readOne start c) (readOne start c') := by
  unfold readOne
  cases hn : c.nextArg? with
  | none =>
    rw [h.nextArg?_none same hn]
    exact sameReading_readRest same start.nodeName h
  | some d =>
    obtain ⟨d', hd', hf⟩ := h.nextArg?_some same hn
    rw [hd']
    simp only [← hf.text same]
    exact sameReading_readRest same d.text hf

theorem sameReading (start : Directive) (h : Cursor.Follows r c c') :
    SameReading r l (read start c) (read start c') := by
  fun_induction read start c generalizing c' with
  | case1 start c hn =>
    rw [read_of_none (h.next?_none hn)]
    exact ⟨.ok rfl, h⟩
  | case2 start c first hn e f hs =>
    obtain ⟨first', hfirst', hf⟩ := h.next?_some hn
    obtain ⟨e', f', hs', he, hf'⟩ := (sameReading_readOne same start hf).of_error hs
    rw [read_of_error hfirst' hs']
    exact ⟨.error he, hf'⟩
  | case3 start c first hn next f hs _ ih =>
    obtain ⟨first', hfirst', hf⟩ := h.next?_some hn
    obtain ⟨f', hs', hf'⟩ := (sameReading_readOne same start hf).of_ok hs
    rw [read_of_ok hfirst' hs']
    exact ih hf'

end Directive

end NodeLayers
