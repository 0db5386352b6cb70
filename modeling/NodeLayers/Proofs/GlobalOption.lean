import NodeLayers.Configuration
import NodeLayers.Proofs.Arguments
import NodeLayers.Proofs.Spelling

namespace NodeLayers

theorem LeavesAtEnd.of_append {j k : Nat} {ts us : List Token} (hj : LeavesAtEnd j ts)
    (h : LeavesAtEnd (k + j) (ts ++ us)) : LeavesAtEnd k us := by
  induction ts generalizing j with
  | nil =>
    have hzero : j = 0 := hj
    simpa [hzero] using h
  | cons t ts ih =>
    obtain ⟨hpos, hts⟩ := hj
    obtain ⟨_, hus⟩ := h
    rw [Token.depthAfter_add t k hpos] at hus
    exact ih hts hus

theorem keyword?_brace {τ : Type} [OptionRecord τ] (record : τ) {t : Token} (h : t.opens = true) :
    OptionRecord.keyword? record t.text = none := by
  have htext : t.text = "\x7b" := by
    simp only [Token.opens, Bool.and_eq_true, beq_iff_eq] at h
    exact h.2
  have hnone : Keyword.ofText? "\x7b" = none := by decide
  rw [OptionRecord.keyword?, htext, hnone]
  rfl

namespace Cursor

/-- The braces ahead lead out of no more blocks than the cursor has counted, and out of the last of
them with the last token. -/
def EndsWithin (c : Cursor) : Prop :=
  ∃ k, k ≤ c.nesting ∧ LeavesAtEnd k c.ahead

theorem EndsWithin.nextArg? {c d : Cursor} (h : c.EndsWithin) (hd : c.nextArg? = some d) :
    d.EndsWithin ∧ d.nesting = c.nesting := by
  obtain ⟨k, hk, hl⟩ := h
  obtain ⟨u, rest, hu, rfl, ho, _⟩ := nextArg?_eq_some hd
  rw [hu] at hl
  exact ⟨⟨u.depthAfter k, (u.depthAfter_le_of_not_opens ho k).trans hk, hl.2⟩, rfl⟩

theorem EndsWithin.setting {c : Cursor} (h : c.EndsWithin) (k : Keyword) :
    (c.setting k).2.EndsWithin ∧ (c.setting k).2.nesting = c.nesting := by
  have keeps : KeepsArguments (fun d => d.EndsWithin ∧ d.nesting = c.nesting) fun _ => True :=
    { nextArg? := fun h hd => (h.1.nextArg? hd).imp_right (Eq.trans · h.2)
      missing := fun _ => trivial
      invalid := fun _ _ => trivial }
  exact (keeps.setting ⟨h, rfl⟩ k).cursor

theorem EndsWithin.nextInBlock {c d : Cursor} {more : Bool} (h : c.EndsWithin)
    (hn : 0 < c.nesting) (hd : c.nextInBlock 0 = (more, d)) :
    d.EndsWithin ∧ (more = true → 0 < d.nesting) ∧ (more = false → d.ahead = []) := by
  obtain ⟨k, hk, hl⟩ := h
  obtain ⟨passed, ahead, n⟩ := c
  cases ahead with
  | nil =>
    rw [nextInBlock_end hn] at hd
    cases hd
    exact ⟨⟨k, hk, hl⟩, by simp, fun _ => rfl⟩
  | cons t rest =>
    have hle : t.depthAfter k ≤ t.depthAfter n := t.depthAfter_mono hk
    rw [nextInBlock_inside hn] at hd
    cases hd
    refine ⟨⟨t.depthAfter k, hle, hl.2⟩, by simp, fun hzero => ?_⟩
    -- out of every counted block, hence out of every block that the braces ahead would close
    have hout : t.depthAfter k = 0 := by
      have : ¬0 < t.depthAfter n := by simpa using hzero
      omega
    have hrest : LeavesAtEnd 0 rest := hout ▸ hl.2
    exact hrest.eq_nil

end Cursor

theorem Node.read_eq_ok {c f : Cursor} {node : Node} (h : Node.read c = (.ok node, f)) :
    c.opensBlock = true ∧ f = c.segment.2 ∧
      (readOptions (∅ : Settings)
        ((Cursor.ofTokens c.segment.1).next?.getD (.ofTokens c.segment.1))).failure = none := by
  unfold Node.read at h
  split at h
  next hb =>
    simp only [Cursor.enterSegment] at h
    split at h
    next hf => cases h; exact ⟨hb, rfl, hf⟩
    next => cases h
  next => cases h

/-- A block of options that begins with a second brace is refused: a brace names no option. -/
theorem readOptions_second_brace {τ : Type} [OptionRecord τ] {record : τ} {t brace first : Token}
    {passed rest : List Token} (hs : t.sharesLine brace = true) (hb : brace.opens = true)
    (hf : first.opens = true) :
    (readOptions record ⟨t :: passed, brace :: first :: rest, 0⟩).failure ≠ none := by
  have hmove : Cursor.nextInBlock ⟨t :: passed, brace :: first :: rest, 0⟩ 0 =
      (true, ⟨first :: brace :: t :: passed, rest, 1⟩) :=
    Cursor.nextInBlock_enter (Nat.le_refl 0) hs hb (Token.not_closes_of_opens hf)
  rw [readOptions_of_unknown hmove (keyword?_brace _ hf)]
  simp

theorem Node.endsWithin_read {c f : Cursor} {node : Node} (h : c.EndsWithin) (hn : 0 < c.nesting)
    (hr : Node.read c = (.ok node, f)) : f.EndsWithin ∧ 0 < f.nesting := by
  obtain ⟨hb, rfl, hread⟩ := Node.read_eq_ok hr
  obtain ⟨k, hk, hl⟩ := h
  obtain ⟨t, passed, brace, rest, hc, hopens, hs⟩ := Cursor.eq_of_opensBlock hb
  have hpos : 0 < k := by
    rw [hc] at hl
    exact hl.1
  have hargs : c.args = ([], c) := by
    rw [hc]
    exact Cursor.args_of_none (Cursor.nextArg?_of_opens hopens)
  have hpassed : c.passed ≠ [] := by rw [hc]; exact List.cons_ne_nil t passed
  have hsegmented := Cursor.segmented hpassed
  revert hread hsegmented
  generalize c.segment.1 = s, c.segment.2 = d
  intro hread hsegmented
  cases hsegmented with
  | line hline => rw [hargs, hb] at hline; cases hline
  | @emptyBlock brace' last rest' _ ha hclose =>
    rw [hargs] at ha
    rw [ha] at hl
    have hopens' := Cursor.opens_of_opensBlock hb ha
    have hrest := hl.2.2
    rw [Token.depthAfter_of_opens hopens', Token.depthAfter_of_closes hclose] at hrest
    exact ⟨⟨k, hk, hrest⟩, hn⟩
  | @brokenOff brace' _ ha =>
    rw [hargs] at ha
    rw [ha] at hl
    have hopens' := Cursor.opens_of_opensBlock hb ha
    have hzero : brace'.depthAfter k = 0 := hl.2
    rw [Token.depthAfter_of_opens hopens'] at hzero
    omega
  | @block brace' first inner last rest' _ ha hf hleaves =>
    rw [hargs] at ha
    rw [ha] at hl
    obtain rfl : brace = brace' := by rw [hc] at ha; cases ha; rfl
    cases ho : first.opens with
    | true =>
      -- here the block as collected ends too late, but the node's reader has already failed
      have hcur : c.current? = some t := by rw [hc]; rfl
      rw [hargs, hcur] at hread
      exact absurd hread (readOptions_second_brace hs hopens ho)
    | false =>
      have hinner := hl.2.2
      rw [Token.depthAfter_of_opens hopens, Token.depthAfter_of_plain hf ho,
        List.append_cons] at hinner
      exact ⟨⟨k, hk, hleaves.of_append hinner⟩, hn⟩
  | @unclosed brace' first inner m _ ha hf hstays hm =>
    exact ⟨⟨0, Nat.zero_le _, rfl⟩, Nat.add_pos_left hn m⟩

namespace App

theorem endsWithin_readEntry {a b : App} {c f : Cursor} (h : c.EndsWithin) (hn : 0 < c.nesting)
    (hr : a.readEntry c = (.ok b, f)) : f.EndsWithin ∧ 0 < f.nesting := by
  unfold readEntry at hr
  split at hr
  next k _ =>
    have hset := h.setting k
    obtain ⟨_, rfl⟩ := Prod.mk.inj hr
    exact ⟨hset.1, hset.2 ▸ hn⟩
  next =>
    cases hnode : Node.read c with
    | mk result rest =>
      rw [hnode] at hr
      cases result with
      | error e => cases hr
      | ok node =>
        cases hr
        exact Node.endsWithin_read h hn hnode

/-- Inside its block the reader stops at the last token or at a fault. -/
theorem ahead_readBlock {a : App} {c : Cursor} (h : c.EndsWithin) (hn : 0 < c.nesting)
    (hf : (a.readBlock c).failure = none) : (a.readBlock c).cursor.ahead = [] := by
  fun_induction readBlock a c with
  | case1 a c d hd => exact (h.nextInBlock hn hd).2.2 rfl
  | case2 => cases hf
  | case3 a c d hd b f hs _ ih =>
    obtain ⟨hinside, hpos, _⟩ := h.nextInBlock hn hd
    obtain ⟨hentry, hnesting⟩ := endsWithin_readEntry hinside (hpos rfl) hs
    exact ih hentry hnesting hf

theorem read_eq_ok {c d : Cursor} {a : App} (h : c.next? = some d) (hr : (App.read c).1 = .ok a) :
    ((∅ : App).readBlock d).failure = none ∧ ((∅ : App).readBlock d).record = a ∧
      (App.read c).2 = ((∅ : App).readBlock d).cursor := by
  unfold read at hr ⊢
  rw [h] at hr ⊢
  simp only at hr ⊢
  split at hr
  next hf => cases hr; exact ⟨hf, rfl, rfl⟩
  next => cases hr

theorem readBlock_header {t : Token} (rest : List Token)
    (h : ∀ u ∈ rest.head?, (u.opens && t.sharesLine u) = false) (a : App) :
    a.readBlock ⟨[t], rest, 0⟩ = ⟨a, ⟨[t], rest, 0⟩, none⟩ :=
  readBlock_of_false (Cursor.nextInBlock_none (Nat.le_refl 0) h)

theorem read_of_header {t : Token} {args rest : List Token} {a : App} (header : Header t args)
    (hempty : args ≠ [] ∨ rest = [])
    (hr : (App.read (.ofTokens (t :: args ++ rest))).1 = .ok a) :
    ((App.read (.ofTokens (t :: args ++ rest))).2.ahead = [] ↔
        ∀ u ∈ (args ++ rest).head?, u.opens = true) ∧
      ((∃ u ∈ (args ++ rest).head?, u.opens = false) → a = ∅) := by
  have hnext : (Cursor.ofTokens (t :: args ++ rest)).next? = some ⟨[t], args ++ rest, 0⟩ := rfl
  obtain ⟨_, hrecord, hcursor⟩ := read_eq_ok hnext hr
  have hplain : ∀ u ∈ (args ++ rest).head?, u.opens = false := by
    intro u hu
    cases args with
    | nil =>
      have hrest : rest = [] := hempty.resolve_left (fun h => h rfl)
      rw [hrest] at hu
      cases hu
    | cons v args =>
      obtain rfl : v = u := by simpa using hu
      exact header.args_opens v List.mem_cons_self
  have hblock := readBlock_header (t := t) (args ++ rest)
    (fun u hu => by rw [hplain u hu]; rfl) ∅
  rw [hblock] at hrecord hcursor
  rw [hcursor]
  refine ⟨?_, fun _ => hrecord.symm⟩
  cases hrest : args ++ rest with
  | nil => simp
  | cons u more =>
    have hu := hplain u (by rw [hrest]; rfl)
    simp [hu]

theorem ahead_read_of_block {t brace first last : Token} {inner : List Token} {a : App}
    (hs : t.sharesLine brace = true) (hb : brace.opens = true) (hf : first.closes = false)
    (hl : LeavesAtEnd 1 (inner ++ [last]))
    (hr : (App.read (.ofTokens (t :: brace :: first :: (inner ++ [last])))).1 = .ok a) :
    (App.read (.ofTokens (t :: brace :: first :: (inner ++ [last])))).2.ahead = [] := by
  have hnext : (Cursor.ofTokens (t :: brace :: first :: (inner ++ [last]))).next? =
      some ⟨[t], brace :: first :: (inner ++ [last]), 0⟩ := rfl
  have hmove : Cursor.nextInBlock ⟨[t], brace :: first :: (inner ++ [last]), 0⟩ 0 =
      (true, ⟨first :: brace :: [t], inner ++ [last], 1⟩) :=
    Cursor.nextInBlock_enter (Nat.le_refl 0) hs hb hf
  have hinside : Cursor.EndsWithin ⟨first :: brace :: [t], inner ++ [last], 1⟩ :=
    ⟨1, Nat.le_refl 1, hl⟩
  obtain ⟨hfailure, _, hcursor⟩ := read_eq_ok hnext hr
  rw [hcursor]
  cases hentry : (∅ : App).readEntry ⟨first :: brace :: [t], inner ++ [last], 1⟩ with
  | mk result f =>
    cases result with
    | error e =>
      rw [readBlock_of_error hmove hentry] at hfailure
      cases hfailure
    | ok b =>
      obtain ⟨hf', hn'⟩ := endsWithin_readEntry hinside Nat.one_pos hentry
      rw [readBlock_of_ok hmove hentry] at hfailure ⊢
      exact ahead_readBlock hf' hn' hfailure

theorem read_segment {s : Segment} {us : List Token} {a : App} (hs : s.Spelled us)
    (hr : (App.read (.ofTokens s)).1 = .ok a) :
    ((App.read (.ofTokens s)).2.ahead = [] ↔ ∀ t ∈ s.tail.head?, t.opens = true) ∧
      ((∃ t ∈ s.tail.head?, t.opens = false) → a = ∅) := by
  have hline : ∀ {t : Token} {args : List Token}, Header t args → s = t :: args →
      ((App.read (.ofTokens s)).2.ahead = [] ↔ ∀ t ∈ s.tail.head?, t.opens = true) ∧
        ((∃ t ∈ s.tail.head?, t.opens = false) → a = ∅) := by
    intro t args header he
    subst he
    rw [← List.append_nil (t :: args)] at hr ⊢
    exact read_of_header header (Or.inr rfl) hr
  cases hs with
  | line header => exact hline header rfl
  | emptyBlock header => exact hline header rfl
  | @block t args brace first inner last header hsame hb hf hl =>
    have hsplit : t :: args ++ brace :: first :: inner ++ [last] =
        t :: args ++ brace :: first :: (inner ++ [last]) := List.append_assoc _ _ _
    rw [hsplit] at hr ⊢
    cases args with
    | cons u args => exact read_of_header header (Or.inl (List.cons_ne_nil u args)) hr
    | nil =>
      have hend := ahead_read_of_block (oneLine_pair.mp hsame) hb hf hl hr
      rw [List.cons_append, List.nil_append, hend]
      simp [hb]

end App

namespace Configuration

/-- In a document that can be loaded the global option is read to its last token just when no
argument stands between its name and its block. Otherwise its whole block is passed over. -/
theorem globalOption_read_iff {source : Source} {text : String} {c : Configuration}
    {ts : List Token} {d : Document} {s : Segment} (h : ofText source text = .ok c)
    (ht : tokenize source text = .ok ts) (hd : Document.ofTokens ts = .ok d)
    (hs : s ∈ (d.filter Block.isGlobal).flatMap (·.named App.name)) :
    ((App.read (.ofTokens s)).2.ahead = [] ↔ ∀ t ∈ s.tail.head?, t.opens = true) ∧
      ((∃ t ∈ s.tail.head?, t.opens = false) → c.app = ∅) := by
  rw [ofText_eq ht hd] at h
  obtain ⟨_, hread⟩ := readApp_eq_ok (ofDocument_eq_ok_iff.mp h).1 hs
  obtain ⟨b, hb, hsb⟩ := List.mem_flatMap.mp hs
  obtain ⟨us, hspelled⟩ := (Document.spelled_ofTokens hd).segment (List.mem_filter.mp hb).1
    (List.mem_filter.mp hsb).1
  exact App.read_segment hspelled hread

/-- The global option with an argument in front of its block. -/
def namedOption : Segment :=
  [⟨none, 2, "tailscale", false⟩, ⟨none, 2, "edge", false⟩, ⟨none, 2, "\x7b", false⟩,
    ⟨none, 3, "webui", false⟩, ⟨none, 4, "\x7d", false⟩]

theorem namedOption_passed_over :
    ofText none "\x7b\n  tailscale edge \x7b\n    webui\n  \x7d\n\x7d" = .ok ∅ ∧
      (App.read (.ofTokens namedOption)).2.ahead ≠ [] := by
  have h : ofText none "\x7b\n  tailscale edge \x7b\n    webui\n  \x7d\n\x7d" = .ok ∅ := by
    decide +kernel
  have ht : tokenize none "\x7b\n  tailscale edge \x7b\n    webui\n  \x7d\n\x7d" =
      .ok (⟨none, 1, "\x7b", false⟩ :: namedOption ++ [⟨none, 5, "\x7d", false⟩]) := by
    decide +kernel
  have hd : Document.ofTokens
      (⟨none, 1, "\x7b", false⟩ :: namedOption ++ [⟨none, 5, "\x7d", false⟩]) =
      .ok [⟨[], [namedOption]⟩] := by
    decide +kernel
  have hread := globalOption_read_iff h ht hd (s := namedOption) (by decide)
  refine ⟨h, fun hend => ?_⟩
  have hopens := hread.1.mp hend
  revert hopens
  decide

end Configuration

end NodeLayers
