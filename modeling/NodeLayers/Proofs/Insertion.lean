import NodeLayers.Proofs.TreeLines

namespace NodeLayers

/-- A place between two directives of a block, or at one end of it, with all that surrounds it. -/
structure Gap where
  earlier : List BlockTree
  keys : List PlainToken
  braces : Braces
  above : List Statement
  below : List Statement
  later : List BlockTree
  earlierKeyed : ∀ b ∈ earlier.tail, b.keys ≠ []
  keyed : earlier ≠ [] → keys ≠ []
  laterKeyed : ∀ b ∈ later, b.keys ≠ []

namespace Gap

/-- The block with these directives in the gap. -/
def block (g : Gap) (ss : List Statement) : BlockTree :=
  ⟨g.keys, g.braces, g.above ++ ss ++ g.below⟩

/-- The document with these directives in the gap. -/
def fill (g : Gap) (ss : List Statement) : DocumentTree where
  blocks := g.earlier ++ g.block ss :: g.later
  keyed := by
    cases he : g.earlier with
    | nil => exact g.laterKeyed
    | cons first earlier =>
      have hearlier := g.earlierKeyed
      rw [he] at hearlier
      intro b hb
      rcases List.mem_append.mp hb with hb | hb
      · exact hearlier b hb
      · rcases List.mem_cons.mp hb with rfl | hb
        · exact g.keyed (he ▸ List.cons_ne_nil first earlier)
        · exact g.laterKeyed b hb

def rowsAbove (g : Gap) : List (List Token) :=
  g.earlier.flatMap BlockTree.rows ++
    (g.keys.map PlainToken.token ++ [g.braces.opening]) :: Statement.rowsOf g.above

def rowsBelow (g : Gap) : List (List Token) :=
  Statement.rowsOf g.below ++ [g.braces.closing] :: g.later.flatMap BlockTree.rows

theorem rows_fill (g : Gap) (ss : List Statement) :
    (g.fill ss).rows = g.rowsAbove ++ Statement.rowsOf ss ++ g.rowsBelow := by
  simp [fill, block, DocumentTree.rows, BlockTree.rows, rowsAbove, rowsBelow,
    Statement.rowsOf_eq_flatten]

/-- The gap with all that stands below it on other lines. -/
def relineBelow (f : Nat → Nat) (g : Gap) : Gap where
  earlier := g.earlier
  keys := g.keys
  braces := ⟨g.braces.opening, g.braces.closing.reline f, g.braces.opens, g.braces.closes⟩
  above := g.above
  below := Statement.relineAll f g.below
  later := g.later.map (·.reline f)
  earlierKeyed := g.earlierKeyed
  keyed := g.keyed
  laterKeyed := by
    intro b hb
    obtain ⟨b, hmem, rfl⟩ := List.mem_map.mp hb
    simpa [BlockTree.reline] using g.laterKeyed b hmem

theorem rowsAbove_relineBelow (f : Nat → Nat) (g : Gap) :
    (g.relineBelow f).rowsAbove = g.rowsAbove :=
  rfl

theorem rowsBelow_relineBelow (f : Nat → Nat) (g : Gap) :
    (g.relineBelow f).rowsBelow = relineRows f g.rowsBelow := by
  have hlater : (g.later.map (·.reline f)).flatMap BlockTree.rows =
      relineRows f (g.later.flatMap BlockTree.rows) := by
    rw [List.flatMap_map, relineRows, List.map_flatMap]
    exact List.flatMap_congr fun b _ => b.rows_reline f
  rw [rowsBelow, relineBelow, Statement.rowsOf_reline, hlater]
  simp [rowsBelow, relineRows]

end Gap

def Statement.heading : Statement → Heading
  | .line heading => heading
  | .block heading _ _ => heading

def Statement.name (s : Statement) : String :=
  s.heading.name.token.text

theorem Statement.name_reline (f : Nat → Nat) (s : Statement) : (s.reline f).name = s.name := by
  cases s <;> rfl

theorem Statement.isNamed_segment (s : Statement) (name : String) :
    s.segment.isNamed name = (s.name == name) := by
  cases s with
  | line => rfl
  | block heading braces body => cases body <;> rfl

section sameTokens

variable {r : Token → Token → Prop} {l : Location → Location → Prop}

theorem Alike.anywhere (same : Alike r l) : Alike r fun _ _ => True :=
  { same with location := fun _ => trivial, nowhere := trivial }

theorem alike_eq : Alike Eq fun _ _ => True where
  text := congrArg _
  opens := congrArg _
  closes := congrArg _
  sharesLine := by rintro _ _ _ _ rfl rfl; rfl
  location _ := trivial
  nowhere := trivial

theorem Segment.SameTokens.isNamed {s s' : Segment} (h : s.SameTokens l s') (name : String) :
    s.isNamed name = s'.isNamed name := by
  obtain ⟨_, same, hs⟩ := h
  exact same.isNamed hs name

end sameTokens

/-- The directives of this name. -/
def namedIn (name : String) (ss : List Statement) : List Segment :=
  (ss.map Statement.segment).filter (·.isNamed name)

/-- Directives that are the same but for their places. -/
abbrev SameSegments := List.Forall₂ (Segment.SameTokens fun _ _ => True)

theorem namedIn_append (name : String) (ss ss' : List Statement) :
    namedIn name (ss ++ ss') = namedIn name ss ++ namedIn name ss' := by
  simp [namedIn]

theorem namedIn_of_ne {name : String} {ss : List Statement} (h : ∀ s ∈ ss, s.name ≠ name) :
    namedIn name ss = [] := by
  simpa [namedIn, Statement.isNamed_segment] using h

theorem sameSegments_refl (ss : List Segment) : SameSegments ss ss :=
  List.forall₂_same.mpr fun _ _ => ⟨Eq, alike_eq, List.forall₂_same.mpr fun _ _ => rfl⟩

theorem sameSegments_lower (m : Nat) (ss : List Statement) (name : String) :
    SameSegments (namedIn name ss) (namedIn name (Statement.relineAll (· + m) ss)) := by
  have hall : SameSegments (ss.map Statement.segment)
      ((Statement.relineAll (· + m) ss).map Statement.segment) := by
    rw [Statement.relineAll_eq, List.map_map]
    refine List.forall₂_map_left_iff.mpr (List.forall₂_map_right_iff.mpr
      (List.forall₂_same.mpr fun s _ => ⟨_, (alike_lower m).anywhere, ?_⟩))
    rw [Function.comp_apply, s.segment_reline]
    exact List.forall₂_map_right_iff.mpr (List.forall₂_same.mpr fun _ _ => rfl)
  exact forall₂_filter hall fun _ _ hs => hs.isNamed name

theorem Block.saysSame_refl (b : Block) : b.SaysSame (fun _ _ => True) b :=
  ⟨rfl, sameSegments_refl _, sameSegments_refl _⟩

theorem BlockTree.named_block (b : BlockTree) (name : String) :
    b.block.named name = namedIn name b.body :=
  rfl

theorem BlockTree.saysSame_lower (m : Nat) (b : BlockTree) :
    b.block.SaysSame (fun _ _ => True) (b.reline (· + m)).block := by
  refine ⟨?_, sameSegments_lower m b.body _, sameSegments_lower m b.body _⟩
  simp [Block.isGlobal, BlockTree.block, BlockTree.reline]

/-- Directives of other names in the gap do not matter, nor the lines of what stands below it. -/
theorem Gap.saysSame_fill (m : Nat) (g : Gap) {ss ss' : List Statement}
    (hs : ∀ s ∈ ss, s.name ≠ "tailscale") (hs' : ∀ s ∈ ss', s.name ≠ "tailscale") :
    List.Forall₂ (Block.SaysSame fun _ _ => True) (g.fill ss).document
      ((g.relineBelow (· + m)).fill ss').document := by
  have hnamed : SameSegments ((g.block ss).block.named "tailscale")
      (((g.relineBelow (· + m)).block ss').block.named "tailscale") := by
    rw [BlockTree.named_block, BlockTree.named_block, block, block]
    simp only [namedIn_append, namedIn_of_ne hs, namedIn_of_ne hs', List.append_nil]
    exact List.rel_append (sameSegments_refl _) (sameSegments_lower m g.below _)
  have hlater : ∀ b ∈ g.later, b.block.SaysSame (fun _ _ => True) (b.reline (· + m)).block :=
    fun b _ => b.saysSame_lower m
  rw [fill, fill, DocumentTree.document, DocumentTree.document, List.map_append, List.map_append]
  refine List.rel_append ?_ (.cons ⟨rfl, hnamed, hnamed⟩ ?_)
  · exact List.forall₂_same.mpr fun b _ => b.saysSame_refl
  · rw [relineBelow, List.map_map]
    exact List.forall₂_map_left_iff.mpr (List.forall₂_map_right_iff.mpr
      (List.forall₂_same.mpr hlater))

/-- The text is written in these rows when its first line stands `k` lines below the top. -/
structure WrittenAt (source : Source) (k : Nat) (text : String) (rows : List (List Token)) :
    Prop where
  tokens : ∃ ts, tokenize source text = .ok ts ∧ ts.map (·.lower k) = rows.flatten
  inRows : InRows rows

section written

variable {source : Source} {k m : Nat} {a b text : String} {rows more : List (List Token)}

theorem Token.lower_lower (m k : Nat) (t : Token) : (t.lower m).lower k = t.lower (k + m) := by
  simp [Token.lower, Nat.add_assoc, Nat.add_comm m k]

theorem writtenAt_zero (ht : tokenize source text = .ok rows.flatten) (h : InRows rows) :
    WrittenAt source 0 text rows :=
  ⟨⟨rows.flatten, ht, List.map_id' _⟩, h⟩

theorem WrittenAt.tokenize_eq (h : WrittenAt source 0 text rows) :
    tokenize source text = .ok rows.flatten := by
  obtain ⟨⟨ts, ht, hts⟩, _⟩ := h
  rw [ht, ← hts]
  exact congrArg _ (List.map_id' ts).symm

theorem WrittenAt.lower (h : WrittenAt source k text rows) (m : Nat) :
    WrittenAt source (k + m) text (relineRows (· + m) rows) := by
  obtain ⟨⟨ts, ht, hts⟩, hrows⟩ := h
  refine ⟨⟨ts, ht, ?_⟩, (inRows_lower m).mpr hrows⟩
  rw [flatten_relineRows, ← hts, List.map_map]
  exact List.map_congr_left fun t _ => by rw [Nat.add_comm k m]; exact (t.lower_lower k m).symm

/-- What stands further down has come from above. -/
theorem WrittenAt.lower_raise (h : WrittenAt source (k + m) text rows) :
    relineRows (· + m) (relineRows (· - m) rows) = rows := by
  obtain ⟨⟨ts, _, hts⟩, _⟩ := h
  have htoken : ∀ t ∈ rows.flatten, (t.reline (· - m)).reline (· + m) = t := by
    intro t ht
    rw [← hts] at ht
    obtain ⟨u, _, rfl⟩ := List.mem_map.mp ht
    simp only [Token.lower, Token.reline, Token.mk.injEq, true_and, and_true]
    omega
  rw [relineRows, relineRows, List.map_map]
  refine (List.map_congr_left fun row hrow => ?_).trans (List.map_id rows)
  rw [Function.comp_apply, List.map_map]
  refine (List.map_congr_left fun t ht => ?_).trans (List.map_id row)
  exact htoken t (List.mem_flatten_of_mem hrow ht)

theorem WrittenAt.raise (h : WrittenAt source (k + m) text rows) :
    WrittenAt source k text (relineRows (· - m) rows) := by
  have hlowered := h.lower_raise
  obtain ⟨⟨ts, ht, hts⟩, hrows⟩ := h
  refine ⟨⟨ts, ht, ?_⟩, (inRows_lower m).mp (by rwa [hlowered])⟩
  rw [flatten_relineRows, ← hts, List.map_map]
  refine List.map_congr_left fun t _ => ?_
  simp only [Function.comp_apply, Token.lower, Token.reline, Token.mk.injEq, true_and, and_true]
  omega

theorem newlines_below (a b : String) : newlines (a ++ "\n" ++ b).toList + 1 =
    newlines a.toList + 1 + (newlines b.toList + 1) := by
  simp only [String.toList_append, newlines_append]
  have hline : newlines "\n".toList = 1 := by decide
  omega

/-- Two texts with a line end between them are written one below the other. -/
theorem WrittenAt.append (ha : WrittenAt source k a rows)
    (hb : WrittenAt source (k + (newlines a.toList + 1)) b more) :
    WrittenAt source k (a ++ "\n" ++ b) (rows ++ more) := by
  obtain ⟨⟨ts, ht, hts⟩, hrows⟩ := ha
  obtain ⟨⟨us, hu, hus⟩, hmore⟩ := hb
  refine ⟨⟨_, tokenize_append_newline ht hu, ?_⟩, hrows.append hmore ?_⟩
  · rw [List.flatten_append, ← hts, ← hus, List.map_append, List.map_map]
    refine congrArg (ts.map (·.lower k) ++ ·) (List.map_congr_left fun u _ => ?_)
    exact u.lower_lower _ k
  · -- the first text ends on the line above the second
    rw [← hts, ← hus]
    intro t htmem u humem
    obtain ⟨t, hmem, rfl⟩ := List.mem_map.mp htmem
    obtain ⟨u, hmem', rfl⟩ := List.mem_map.mp humem
    have hlast := (line_of_mem_tokenize ht hmem).2
    have hfirst := (line_of_mem_tokenize hu hmem').1
    simp only [Token.lastLine, Token.lower] at hlast ⊢
    omega

/-- A text written in rows is cut at a line end between two of them. -/
theorem WrittenAt.split (h : WrittenAt source k (a ++ "\n" ++ b) (rows ++ more))
    (ha : WrittenAt source k a rows) :
    WrittenAt source (k + (newlines a.toList + 1)) b more := by
  obtain ⟨⟨vs, hv, hvs⟩, hrows⟩ := h
  obtain ⟨⟨ts, ht, hts⟩, _⟩ := ha
  obtain ⟨us, hu⟩ := exists_tokenize_of_append_newline ht hv
  have hsplit : vs = ts ++ us.map (·.lower (newlines a.toList + 1)) :=
    Except.ok.inj (hv.symm.trans (tokenize_append_newline ht hu))
  refine ⟨⟨us, hu, ?_⟩, hrows.part (List.suffix_append rows more).isInfix⟩
  rw [hsplit, List.map_append, List.flatten_append, hts] at hvs
  rw [← List.append_cancel_left hvs, List.map_map]
  exact List.map_congr_left fun u _ => (u.lower_lower _ k).symm

end written

namespace Configuration

variable {source : Source} {a b inserted text : String} {g : Gap} {s : Statement}

theorem ofText_of_writtenAt {t : DocumentTree} (h : WrittenAt source 0 text t.rows) :
    ofText source text = ofDocument t.document := by
  refine ofText_eq h.tokenize_eq ?_
  rw [t.flatten_rows]
  exact Document.ofTokens_of_laidOut (DocumentTree.laidOut h.inRows) t.isGlobal_of_mem_tail

/-- A text above the gap, another below it, and a directive's text on lines of its own between
them: without the directive the same is read. -/
theorem agree_ofText_gap (ha : WrittenAt source 0 a g.rowsAbove)
    (hb : WrittenAt source (newlines a.toList + 1) b g.rowsBelow)
    (hs : WrittenAt source (newlines a.toList + 1) inserted s.rows) (hname : s.name ≠ "tailscale") :
    Agree (fun _ _ => True) Eq (ofText source (a ++ "\n" ++ b))
      (ofText source (a ++ "\n" ++ inserted ++ "\n" ++ b)) := by
  let m := newlines inserted.toList + 1
  have hwithout : WrittenAt source 0 (a ++ "\n" ++ b) (g.fill []).rows := by
    rw [g.rows_fill, Statement.rowsOf, List.append_nil]
    exact ha.append (by rwa [Nat.zero_add])
  have habove : WrittenAt source 0 (a ++ "\n" ++ inserted) (g.rowsAbove ++ s.rows) :=
    ha.append (by rwa [Nat.zero_add])
  have hwith : WrittenAt source 0 (a ++ "\n" ++ inserted ++ "\n" ++ b)
      ((g.relineBelow (· + m)).fill [s]).rows := by
    rw [Gap.rows_fill, Gap.rowsAbove_relineBelow, Gap.rowsBelow_relineBelow, Statement.rowsOf,
      Statement.rowsOf, List.append_nil]
    refine habove.append ?_
    rw [Nat.zero_add, newlines_below]
    exact hb.lower m
  rw [ofText_of_writtenAt hwithout, ofText_of_writtenAt hwith]
  refine agree_ofDocument (Gap.saysSame_fill m g (List.forall_mem_nil _) ?_)
  exact List.forall_mem_singleton.mpr hname

/-- Directives of other names do not matter. Where `a` are the lines of a document above a gap and
`b` those below it, a directive may be put between them, on lines of its own and with any body, and
the same is read; and so it is when a directive that stands there is taken away. -/
theorem ofText_unrelated (hname : s.name ≠ "tailscale") :
    (tokenize source (a ++ "\n" ++ b) = .ok (g.fill []).rows.flatten →
      InRows (g.fill []).rows → tokenize source a = .ok g.rowsAbove.flatten →
      tokenize source inserted = .ok s.rows.flatten → InRows s.rows →
      ∀ c, ofText source (a ++ "\n" ++ b) = .ok c ↔
        ofText source (a ++ "\n" ++ inserted ++ "\n" ++ b) = .ok c) ∧
    (tokenize source (a ++ "\n" ++ inserted ++ "\n" ++ b) = .ok (g.fill [s]).rows.flatten →
      InRows (g.fill [s]).rows → tokenize source a = .ok g.rowsAbove.flatten →
      tokenize source (a ++ "\n" ++ inserted) = .ok (g.rowsAbove ++ s.rows).flatten →
      ∀ c, ofText source (a ++ "\n" ++ inserted ++ "\n" ++ b) = .ok c ↔
        ofText source (a ++ "\n" ++ b) = .ok c) := by
  let k := newlines a.toList + 1
  let m := newlines inserted.toList + 1
  constructor
  · intro ht hrows ha hinserted hs c
    rw [g.rows_fill, Statement.rowsOf, List.append_nil] at ht hrows
    have habove : WrittenAt source 0 a g.rowsAbove :=
      writtenAt_zero ha (hrows.part (List.prefix_append _ _).isInfix)
    have hbelow : WrittenAt source k b g.rowsBelow := by
      have hb := (writtenAt_zero ht hrows).split habove
      rwa [Nat.zero_add] at hb
    have hbetween : WrittenAt source k inserted (s.reline (· + k)).rows := by
      have hlower := (writtenAt_zero hinserted hs).lower k
      rwa [Nat.zero_add, ← s.rows_reline] at hlower
    exact (agree_ofText_gap habove hbelow hbetween (by rwa [s.name_reline])).ok_iff c
  · intro ht hrows ha hinserted c
    rw [g.rows_fill, Statement.rowsOf, Statement.rowsOf, List.append_nil] at ht hrows
    have hpart : InRows (g.rowsAbove ++ s.rows) := hrows.part (List.prefix_append _ _).isInfix
    have habove : WrittenAt source 0 a g.rowsAbove :=
      writtenAt_zero ha (hpart.part (List.prefix_append _ _).isInfix)
    have hthrough := writtenAt_zero hinserted hpart
    have hbetween : WrittenAt source k inserted s.rows := by
      have hs := hthrough.split habove
      rwa [Nat.zero_add] at hs
    have hbelow : WrittenAt source k b (g.relineBelow (· - m)).rowsBelow := by
      have hb := (writtenAt_zero ht hrows).split hthrough
      rw [Nat.zero_add, newlines_below] at hb
      rw [Gap.rowsBelow_relineBelow]
      exact hb.raise
    have hagree := agree_ofText_gap (g := g.relineBelow (· - m)) habove hbelow hbetween hname
    exact (hagree.ok_iff c).symm

/-- The gap below the first directive of a site, with another site behind it. -/
def siteGap : Gap where
  earlier := []
  keys := [⟨⟨none, 2, "a.org", false⟩, rfl, rfl⟩]
  braces := ⟨⟨none, 2, "\x7b", false⟩, ⟨none, 7, "\x7d", false⟩, rfl, rfl⟩
  above :=
    [.line ⟨⟨⟨none, 3, "tailscale", false⟩, rfl, rfl⟩, [⟨⟨none, 3, "web", false⟩, rfl, rfl⟩]⟩]
  below := [.line ⟨⟨⟨none, 5, "tls", false⟩, rfl, rfl⟩, []⟩]
  later :=
    [⟨[⟨⟨none, 8, "b.org", false⟩, rfl, rfl⟩],
      ⟨⟨none, 8, "\x7b", false⟩, ⟨none, 10, "\x7d", false⟩, rfl, rfl⟩,
      [.line ⟨⟨⟨none, 9, "tailscale", false⟩, rfl, rfl⟩,
        [⟨⟨none, 9, "edge", false⟩, rfl, rfl⟩]⟩]⟩]
  earlierKeyed := nofun
  keyed := nofun
  laterKeyed := by simp

/-- A directive of another name with the name that is read inside its body. -/
def handleDirective : Statement :=
  .block ⟨⟨⟨none, 2, "handle", false⟩, rfl, rfl⟩, []⟩
    ⟨⟨none, 2, "\x7b", false⟩, ⟨none, 4, "\x7d", false⟩, rfl, rfl⟩
    [.line ⟨⟨⟨none, 3, "tailscale", false⟩, rfl, rfl⟩, [⟨⟨none, 3, "inner", false⟩, rfl, rfl⟩]⟩]

def textAbove : String :=
  "# two sites\na.org \x7b\n  tailscale web"

def handleText : String :=
  "\n  handle \x7b\n    tailscale inner\n  \x7d"

def textBelow : String :=
  "\n  tls # kept\n\n\x7d\nb.org \x7b\n  tailscale edge\n\x7d\n"

theorem ofText_handle : handleDirective.name ≠ "tailscale" ∧
    ofText none (textAbove ++ "\n" ++ textBelow) = .ok ⟨∅, [⟨"web", ∅⟩, ⟨"edge", ∅⟩]⟩ ∧
    (∀ c, ofText none (textAbove ++ "\n" ++ textBelow) = .ok c ↔
      ofText none (textAbove ++ "\n" ++ handleText ++ "\n" ++ textBelow) = .ok c) ∧
    ∀ c, ofText none (textAbove ++ "\n" ++ handleText ++ "\n" ++ textBelow) = .ok c ↔
      ofText none (textAbove ++ "\n" ++ textBelow) = .ok c := by
  have hname : handleDirective.name ≠ "tailscale" := by decide
  have hlowered : (handleDirective.reline (· + 3)).name ≠ "tailscale" := by decide
  refine ⟨hname, by decide +kernel, (ofText_unrelated (g := siteGap) hname).1 ?_ ?_ ?_ ?_ ?_,
    (ofText_unrelated (g := siteGap.relineBelow (· + 4)) hlowered).2 ?_ ?_ ?_ ?_⟩
  all_goals decide +kernel

end Configuration

end NodeLayers
