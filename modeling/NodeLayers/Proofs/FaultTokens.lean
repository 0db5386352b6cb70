import NodeLayers.Directive
import NodeLayers.App
import NodeLayers.Proofs.Arguments
import NodeLayers.Proofs.Nesting

namespace NodeLayers

/-- The fault says of the token what is so. -/
def Fault.Fits (t : Token) : Fault → Prop
  | .missingOpenBrace => True
  | .lateGlobalBlock | .unclosedBlock | .strayOpenBrace => t.opens = true
  | .missingArgument token => t.text = token
  | .invalidValue token reason => t.text = token ∧ RefusedValue token reason
  | .unknownOption name => t.text = name
  | .repeatedGlobalOption name => t.text = name
  | .unterminatedQuote _ | .refused _ => False

/-- The error stands where the token does, and its fault is one of the token. -/
def ParseError.PointsTo (e : ParseError) (t : Token) : Prop :=
  e.location = t.location ∧ e.fault.Fits t

def ParseError.PointsInto (e : ParseError) (ts : List Token) : Prop :=
  ∃ t ∈ ts, e.PointsTo t

theorem ParseError.PointsInto.mono {e : ParseError} {ts us : List Token} (h : e.PointsInto ts)
    (hs : ts ⊆ us) : e.PointsInto us := by
  obtain ⟨t, ht, he⟩ := h
  exact ⟨t, hs ht, he⟩

namespace Cursor

variable {ts : List Token} {c d : Cursor} {t : Token}

/-- The cursor has passed a token, and moves among these. -/
structure AtTokenOf (ts : List Token) (c : Cursor) : Prop where
  passed : c.passed ≠ []
  tokens : c.tokens ⊆ ts

theorem length_tokens (c : Cursor) : c.tokens.length = c.passed.length + c.ahead.length := by
  rw [tokens, List.length_append, List.length_reverse]

/-- No move forward leaves the tokens. -/
theorem AtTokenOf.move (h : c.AtTokenOf ts) (ht : d.tokens = c.tokens)
    (hl : d.ahead.length ≤ c.ahead.length) : d.AtTokenOf ts := by
  refine ⟨fun hnil => ?_, ht ▸ h.tokens⟩
  have hd := length_tokens d
  have hc := length_tokens c
  have hpos := List.length_pos_iff.mpr h.passed
  rw [ht, hnil, List.length_nil] at hd
  omega

theorem AtTokenOf.of_next? (h : c.tokens ⊆ ts) (hd : c.next? = some d) : d.AtTokenOf ts := by
  obtain ⟨u, rest, _, hsome⟩ := next?_eq_some hd
  refine ⟨?_, tokens_of_next? hd ▸ h⟩
  rw [hsome]
  exact List.cons_ne_nil u _

theorem AtTokenOf.current? (h : c.AtTokenOf ts) : ∃ t ∈ ts, c.current? = some t := by
  obtain ⟨t, passed, hp⟩ := List.exists_cons_of_ne_nil h.passed
  refine ⟨t, h.tokens ?_, by rw [Cursor.current?, hp]; rfl⟩
  simp [Cursor.tokens, hp]

theorem text_of_current? (h : c.current? = some t) : c.text = t.text := by
  rw [text, h]
  rfl

theorem location_of_current? (h : c.current? = some t) : c.location = t.location := by
  rw [location, h]
  rfl

theorem AtTokenOf.fail (h : c.AtTokenOf ts) {fault : Fault}
    (hf : ∀ t, c.current? = some t → fault.Fits t) : (c.fail fault).PointsInto ts := by
  obtain ⟨t, ht, hc⟩ := h.current?
  exact ⟨t, ht, location_of_current? hc, hf t hc⟩

theorem AtTokenOf.missingArgument (h : c.AtTokenOf ts) : c.missingArgument.PointsInto ts :=
  h.fail fun _ hc => (text_of_current? hc).symm

theorem AtTokenOf.unknownOption (h : c.AtTokenOf ts) : c.unknownOption.PointsInto ts :=
  h.fail fun _ hc => (text_of_current? hc).symm

theorem keepsArguments_atTokenOf : KeepsArguments (AtTokenOf ts) (·.PointsInto ts) where
  nextArg? h hd := AtTokenOf.of_next? h.tokens (next?_of_nextArg? hd)
  missing h := h.missingArgument
  invalid h hr := h.fail fun _ hc => ⟨(text_of_current? hc).symm, hr⟩

theorem AtTokenOf.nextInBlock (h : c.AtTokenOf ts) {more : Bool}
    (hd : c.nextInBlock 0 = (more, d)) : d.AtTokenOf ts := by
  have htokens := tokens_nextInBlock c 0
  have hlength := length_ahead_nextInBlock_le c 0
  rw [hd] at htokens hlength
  exact h.move htokens hlength

theorem AtTokenOf.readOptions {τ : Type} [OptionRecord τ] (record : τ) (h : c.AtTokenOf ts) :
    (NodeLayers.readOptions record c).cursor.AtTokenOf ts ∧
      ∀ e ∈ (NodeLayers.readOptions record c).failure, e.PointsInto ts := by
  fun_induction NodeLayers.readOptions record c with
  | case1 record c d hd =>
    refine ⟨h.nextInBlock hd, fun e he => ?_⟩
    cases he
  | case2 record c d hd hk =>
    have hat := h.nextInBlock hd
    refine ⟨hat, fun e he => ?_⟩
    obtain rfl := Option.some.inj he
    exact hat.unknownOption
  | case3 record c d hd k hk e' f hs =>
    have hread := keepsArguments_atTokenOf.setting (h.nextInBlock hd) k
    rw [hs] at hread
    refine ⟨hread.cursor, fun e he => ?_⟩
    obtain rfl := Option.some.inj he
    exact hread.error _ rfl
  | case4 record c d hd k hk s f hs _ ih =>
    have hread := keepsArguments_atTokenOf.setting (h.nextInBlock hd) k
    rw [hs] at hread
    exact ih hread.cursor

/-- A directive's tokens are the current one and some of those ahead. -/
theorem Segmented.subset {s : Segment} (h : Segmented c s d) :
    s ⊆ c.current?.toList ++ c.ahead := by
  have hargs := append_args c
  cases h with
  | line => exact List.append_subset.mpr ⟨by simp, by simp [← hargs]⟩
  | emptyBlock => exact List.append_subset.mpr ⟨by simp, by simp [← hargs]⟩
  | brokenOff => exact List.append_subset.mpr ⟨by simp, by simp [← hargs]⟩
  | @block brace first inner last rest hb ha =>
    rw [← hargs, ha]
    intro u hu
    simp only [List.mem_append, List.mem_cons] at hu ⊢
    tauto
  | @unclosed brace first inner m hb ha =>
    have hlast : (first :: inner).getLast?.toList ⊆ first :: inner := by
      intro u hu
      exact List.mem_of_getLast? (Option.mem_toList.mp hu)
    rw [← hargs, ha]
    intro u hu
    rcases List.mem_append.mp hu with hu | hu
    · simpa [or_assoc] using hu
    · have := hlast hu
      simp only [List.mem_append, List.mem_cons] at this ⊢
      tauto

theorem Segmented.ne_nil {s : Segment} (hc : c.current? = some t) (h : Segmented c s d) :
    s ≠ [] := by
  cases h <;> simp [hc]

theorem AtTokenOf.segment (h : c.AtTokenOf ts) :
    c.segment.1 ≠ [] ∧ c.segment.1 ⊆ ts ∧ c.segment.2.AtTokenOf ts := by
  obtain ⟨t, ht, hc⟩ := h.current?
  have hs := segmented h.passed
  refine ⟨hs.ne_nil hc, ?_, h.move (tokens_segment c) (length_ahead_segment_le c)⟩
  refine List.Subset.trans hs.subset (List.append_subset.mpr ⟨?_, fun u hu => ?_⟩)
  · simpa [hc] using ht
  · exact h.tokens (List.mem_append_right _ hu)

theorem atTokenOf_start {s : Segment} (hs : s ≠ []) (hsub : s ⊆ ts) :
    ((ofTokens s).next?.getD (ofTokens s)).AtTokenOf ts := by
  obtain ⟨t, rest, rfl⟩ := List.exists_cons_of_ne_nil hs
  exact ⟨List.cons_ne_nil t [], hsub⟩

end Cursor

section readers

variable {ts : List Token} {c d : Cursor} {e : ParseError} {s : Segment}

/-- Something is read among these tokens, and what is wrong with it is an error at one of them. -/
abbrev ReadsAmong (ts : List Token) {α : Type} (x : Except ParseError α × Cursor) : Prop :=
  ReadsTo (Cursor.AtTokenOf ts) (·.PointsInto ts) x

theorem Node.readsAmong (h : c.AtTokenOf ts) : ReadsAmong ts (Node.read c) := by
  obtain ⟨hne, hsub, hlast⟩ := h.segment
  unfold Node.read
  split
  next =>
    have hinside := Cursor.atTokenOf_start hne hsub
    have hfilling := (hinside.readOptions (∅ : Settings)).2
    simp only [Cursor.enterSegment]
    split
    next => exact readsTo_ok hlast _
    next e he => exact readsTo_error hlast (hfilling e he)
  next => exact readsTo_error h h.missingArgument

namespace App

theorem readsAmong_readEntry (a : App) (h : c.AtTokenOf ts) : ReadsAmong ts (a.readEntry c) := by
  unfold readEntry
  split
  next k _ => exact (Cursor.keepsArguments_atTokenOf.setting h k).map _
  next => exact (Node.readsAmong h).map _

theorem pointsInto_readBlock {a : App} (h : c.AtTokenOf ts) :
    ∀ e ∈ (a.readBlock c).failure, e.PointsInto ts := by
  fun_induction readBlock a c with
  | case1 => exact nofun
  | case2 a c d hd e' f hs =>
    have hread := readsAmong_readEntry a (h.nextInBlock hd)
    rw [hs] at hread
    intro e he
    obtain rfl := Option.some.inj he
    exact hread.error _ rfl
  | case3 a c d hd b f hs _ ih =>
    have hread := readsAmong_readEntry a (h.nextInBlock hd)
    rw [hs] at hread
    exact ih hread.cursor

theorem pointsInto_of_read (hs : s ≠ []) (he : (App.read (.ofTokens s)).1 = .error e) :
    e.PointsInto s := by
  obtain ⟨t, rest, rfl⟩ := List.exists_cons_of_ne_nil hs
  have hstart : Cursor.AtTokenOf (t :: rest) ⟨[t], rest, 0⟩ :=
    ⟨List.cons_ne_nil t [], List.Subset.refl _⟩
  have hblock := pointsInto_readBlock (a := ∅) hstart
  have hnext : (Cursor.ofTokens (t :: rest)).next? = some ⟨[t], rest, 0⟩ := rfl
  simp only [read, hnext] at he
  split at he
  next => cases he
  next e' hfailure =>
    obtain rfl := Except.error.inj he
    exact hblock _ hfailure

end App

namespace Directive

theorem readsAmong_readRest (nodeName : String) (h : c.AtTokenOf ts) :
    ReadsAmong ts (readRest nodeName c) := by
  unfold readRest
  split
  next surplus hs =>
    have hsurplus := Cursor.keepsArguments_atTokenOf.nextArg? h hs
    exact readsTo_error hsurplus hsurplus.missingArgument
  next =>
    obtain ⟨hcursor, hfailure⟩ := h.readOptions (∅ : Settings)
    simp only
    split
    next e he => exact readsTo_error hcursor (hfailure e he)
    next => exact readsTo_ok hcursor _

theorem readsAmong_readOne (d : Directive) (h : c.AtTokenOf ts) :
    ReadsAmong ts (readOne d c) := by
  unfold readOne
  split
  next => exact readsAmong_readRest d.nodeName h
  next arg harg =>
    exact readsAmong_readRest arg.text (Cursor.keepsArguments_atTokenOf.nextArg? h harg)

theorem pointsInto_of_read {d : Directive} (h : c.tokens ⊆ ts) (he : (read d c).1 = .error e) :
    e.PointsInto ts := by
  fun_induction read d c with
  | case1 => cases he
  | case2 d c first hn e' f hr =>
    have hread := readsAmong_readOne d (Cursor.AtTokenOf.of_next? h hn)
    rw [hr] at hread
    exact hread.error e he
  | case3 d c first hn next f hr _ ih =>
    have hread := readsAmong_readOne d (Cursor.AtTokenOf.of_next? h hn)
    rw [hr] at hread
    exact ih hread.cursor.tokens he

end Directive

end readers

end NodeLayers
