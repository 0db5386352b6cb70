import NodeLayers.Proofs.OptionLines

namespace NodeLayers

/-- A name, a key or an argument. -/
structure PlainToken where
  token : Token
  closes : token.closes = false
  opens : token.opens = false

/-- The braces around a body. -/
structure Braces where
  opening : Token
  closing : Token
  opens : opening.opens = true
  closes : closing.closes = true

structure Heading where
  name : PlainToken
  args : List PlainToken

/-- A line inside a block, with a body of further lines or without one. -/
inductive Statement
  | line (heading : Heading)
  | block (heading : Heading) (braces : Braces) (body : List Statement)

structure BlockTree where
  keys : List PlainToken
  braces : Braces
  body : List Statement

/-- Blocks of which only the first may be without keys. -/
structure DocumentTree where
  blocks : List BlockTree
  keyed : ∀ b ∈ blocks.tail, b.keys ≠ []

def Heading.tokens (h : Heading) : List Token :=
  h.name.token :: h.args.map PlainToken.token

mutual

/-- The rows in which a line is written: an opening brace ends its row, a closing brace has a row
of its own. -/
def Statement.rows : Statement → List (List Token)
  | .line heading => [heading.tokens]
  | .block heading braces body =>
    (heading.tokens ++ [braces.opening]) :: (Statement.rowsOf body ++ [[braces.closing]])

def Statement.rowsOf : List Statement → List (List Token)
  | [] => []
  | s :: ss => s.rows ++ Statement.rowsOf ss

end

/-- The tokens of a line with its body, but nothing of an empty body's braces. -/
def Statement.segment : Statement → Segment
  | .line heading => heading.tokens
  | .block heading _ [] => heading.tokens
  | .block heading braces (s :: body) =>
    heading.tokens ++ braces.opening :: (Statement.rowsOf (s :: body)).flatten ++ [braces.closing]

def BlockTree.rows (b : BlockTree) : List (List Token) :=
  (b.keys.map PlainToken.token ++ [b.braces.opening]) ::
    (Statement.rowsOf b.body ++ [[b.braces.closing]])

def BlockTree.block (b : BlockTree) : Block :=
  ⟨b.keys.map PlainToken.token, b.body.map Statement.segment⟩

def DocumentTree.rows (t : DocumentTree) : List (List Token) :=
  t.blocks.flatMap BlockTree.rows

def DocumentTree.document (t : DocumentTree) : Document :=
  t.blocks.map BlockTree.block

/-- Each row stands on one line, and the next one on another. -/
def InRows (rows : List (List Token)) : Prop :=
  (∀ row ∈ rows, OneLine row) ∧ rows.IsChain EndsLine

theorem InRows.part {rows part : List (List Token)} (h : InRows rows) (hp : part <:+: rows) :
    InRows part := by
  obtain ⟨before, after, rfl⟩ := hp
  exact ⟨fun row hrow => h.1 row (by simp [hrow]), h.2.left_of_append.right_of_append⟩

instance (ts rest : List Token) : Decidable (EndsLine ts rest) :=
  inferInstanceAs (Decidable (∀ t ∈ ts.getLast?, ∀ u ∈ rest.head?, t.sharesLine u = false))

instance (ts : List Token) : Decidable (OneLine ts) :=
  inferInstanceAs (Decidable (ts.IsChain fun t u => t.sharesLine u = true))

instance (rows : List (List Token)) : Decidable (InRows rows) :=
  inferInstanceAs (Decidable (_ ∧ _))

theorem Heading.plain (h : Heading) : ∀ t ∈ h.tokens, t.closes = false ∧ t.opens = false := by
  intro t ht
  rcases List.mem_cons.mp ht with rfl | hm
  · exact ⟨h.name.closes, h.name.opens⟩
  · obtain ⟨a, _, rfl⟩ := List.mem_map.mp hm
    exact ⟨a.closes, a.opens⟩

theorem Heading.header {h : Heading} (hline : OneLine h.tokens) :
    Header h.name.token (h.args.map PlainToken.token) :=
  ⟨h.name.closes, h.name.opens, fun a ha => (h.plain a (List.mem_cons_of_mem _ ha)).2, hline⟩

theorem Statement.flatten_rows_block (heading : Heading) (braces : Braces)
    (body : List Statement) : (Statement.block heading braces body).rows.flatten =
      heading.tokens ++ braces.opening :: (Statement.rowsOf body).flatten ++ [braces.closing] := by
  simp [rows]

mutual

-- by the tree: a line's own tokens are no braces, and those of its body come in a pair
theorem Statement.whole : (s : Statement) → Whole s.rows.flatten
  | .line heading => by
    rw [rows, List.flatten_cons, List.flatten_nil, List.append_nil]
    exact whole_of_plain heading.plain
  | .block heading braces body => by
    rw [Statement.flatten_rows_block, List.append_assoc]
    exact (whole_of_plain heading.plain).append
      ((Statement.whole_rowsOf body).block braces.opens braces.closes)

theorem Statement.whole_rowsOf : (ss : List Statement) → Whole (Statement.rowsOf ss).flatten
  | [] => whole_nil
  | s :: ss => by
    rw [rowsOf, List.flatten_append]
    exact s.whole.append (Statement.whole_rowsOf ss)

theorem Statement.row_ne_nil : (s : Statement) → ∀ row ∈ s.rows, row ≠ []
  | .line heading, row, hrow => by
    rw [rows, List.mem_singleton] at hrow
    rw [hrow]
    exact List.cons_ne_nil _ _
  | .block heading braces body, row, hrow => by
    rw [rows, List.mem_cons, List.mem_append, List.mem_singleton] at hrow
    rcases hrow with rfl | hrow | rfl
    · exact List.cons_ne_nil _ _
    · exact Statement.row_ne_nil_of_rowsOf body row hrow
    · exact List.cons_ne_nil _ _

theorem Statement.row_ne_nil_of_rowsOf :
    (ss : List Statement) → ∀ row ∈ Statement.rowsOf ss, row ≠ []
  | s :: ss, row, hrow => by
    rw [rowsOf, List.mem_append] at hrow
    rcases hrow with hrow | hrow
    · exact s.row_ne_nil row hrow
    · exact Statement.row_ne_nil_of_rowsOf ss row hrow

end

theorem Statement.rowsOf_eq_flatten (ss : List Statement) :
    Statement.rowsOf ss = (ss.map Statement.rows).flatten := by
  induction ss with
  | nil => rfl
  | cons s ss ih => rw [rowsOf, ih, List.map_cons, List.flatten_cons]

theorem Statement.eq_cons (s : Statement) :
    ∃ t used, s.rows.flatten = t :: used ∧ t.closes = false ∧ t.opens = false := by
  cases s with
  | line heading => exact ⟨_, _, rfl, heading.name.closes, heading.name.opens⟩
  | block heading => exact ⟨_, _, rfl, heading.name.closes, heading.name.opens⟩

theorem Statement.rowsOf_head? (ss : List Statement) :
    ∀ u ∈ (Statement.rowsOf ss).flatten.head?, u.closes = false ∧ u.opens = false := by
  cases ss with
  | nil => nofun
  | cons s ss =>
    obtain ⟨t, used, hrows, hc, ho⟩ := s.eq_cons
    rw [rowsOf, List.flatten_append, hrows]
    rintro u ⟨⟩
    exact ⟨hc, ho⟩

theorem Statement.segment_block (heading : Heading) (braces : Braces) (body : List Statement) :
    (Statement.block heading braces body).segment = heading.tokens ++
      keptBlock braces.opening (Statement.rowsOf body).flatten braces.closing := by
  cases body with
  | nil => exact (List.append_nil _).symm
  | cons s ss =>
    have hne : (Statement.rowsOf (s :: ss)).flatten ≠ [] := by
      obtain ⟨t, used, hrows, _⟩ := s.eq_cons
      rw [rowsOf, List.flatten_append, hrows]
      exact List.cons_ne_nil _ _
    rw [keptBlock, if_neg hne, segment, List.append_assoc]

/-- A line that is written in its rows is a directive. -/
theorem Statement.spelled {s : Statement} (h : ∀ row ∈ s.rows, OneLine row) :
    Segment.Spelled s.segment s.rows.flatten := by
  cases s with
  | line heading =>
    have hline : OneLine heading.tokens := h _ List.mem_cons_self
    rw [rows, List.flatten_cons, List.flatten_nil, List.append_nil]
    exact .line (Heading.header hline)
  | block heading braces body =>
    have hline : OneLine (heading.tokens ++ [braces.opening]) := h _ List.mem_cons_self
    rw [flatten_rows_block, segment_block]
    exact spelled_of_whole (Heading.header (List.IsChain.left_of_append hline)) hline
      braces.opens braces.closes (whole_rowsOf body) (rowsOf_head? body)

/-- No row is empty, so the last of some rows and the first of those behind them decide. -/
theorem endsLine_flatten {rows more : List (List Token)} (hrows : ∀ row ∈ rows, row ≠ [])
    (hmore : ∀ row ∈ more, row ≠ []) (h : (rows ++ more).IsChain EndsLine) :
    EndsLine rows.flatten more.flatten := by
  intro t ht u hu
  rcases List.eq_nil_or_concat' rows with rfl | ⟨before, row, rfl⟩
  · cases ht
  cases more with
  | nil => cases hu
  | cons next more =>
    obtain ⟨_, _, hapart⟩ := List.isChain_append.mp h
    have hends : EndsLine row next := hapart row (by simp) next rfl
    have hrow : row ≠ [] := hrows row (by simp)
    have hnext : next ≠ [] := hmore next List.mem_cons_self
    have hlast : (before ++ [row]).flatten.getLast? = row.getLast? := by
      rw [List.flatten_append, List.flatten_singleton, List.getLast?_append_of_ne_nil _ hrow]
    have hfirst : (next :: more).flatten.head? = next.head? := by
      rw [List.flatten_cons, List.head?_append_of_ne_nil _ hnext]
    rw [hlast] at ht
    rw [hfirst] at hu
    exact hends t ht u hu

theorem laid_of_rows {groups : List (List (List Token))} {last : Token}
    (hne : ∀ rows ∈ groups, ∀ row ∈ rows, row ≠ [])
    (h : (groups.flatten ++ [[last]]).IsChain EndsLine) :
    Laid (groups.map List.flatten) [last] := by
  induction groups with
  | nil => trivial
  | cons rows groups ih =>
    rw [List.flatten_cons, List.append_assoc] at h
    refine ⟨?_, ih (fun rs hrs => hne rs (List.mem_cons_of_mem _ hrs)) h.right_of_append⟩
    have hends := endsLine_flatten (hne rows List.mem_cons_self) ?_ h
    · rwa [List.flatten_append, List.flatten_flatten] at hends
    · intro row hrow
      rcases List.mem_append.mp hrow with hrow | hrow
      · obtain ⟨rs, hrs, hmem⟩ := List.mem_flatten.mp hrow
        exact hne rs (List.mem_cons_of_mem _ hrs) row hmem
      · rw [List.mem_singleton.mp hrow]
        exact List.cons_ne_nil _ _

theorem BlockTree.laidOut {b : BlockTree} (h : InRows b.rows) :
    b.block.LaidOut b.rows.flatten := by
  obtain ⟨hline, hapart⟩ := h
  rw [rows, Statement.rowsOf_eq_flatten] at hline hapart
  have htext : b.rows.flatten = b.block.keys ++ b.braces.opening ::
      ((b.body.map fun s => s.rows.flatten).flatten ++ [b.braces.closing]) := by
    rw [rows, Statement.rowsOf_eq_flatten]
    simp [block, List.flatten_flatten, Function.comp_def]
  have hkeys : ∀ k ∈ b.block.keys, k.opens = false := by
    intro k hk
    obtain ⟨key, _, rfl⟩ := List.mem_map.mp hk
    exact key.opens
  have hspelled : List.Forall₂ Segment.Spelled b.block.segments
      (b.body.map fun s => s.rows.flatten) := by
    rw [block, List.forall₂_map_left_iff, List.forall₂_map_right_iff, List.forall₂_same]
    refine fun s hs => Statement.spelled fun row hrow => hline row ?_
    refine List.mem_cons_of_mem _ (List.mem_append_left _ ?_)
    exact List.mem_flatten.mpr ⟨s.rows, List.mem_map_of_mem hs, hrow⟩
  have hne : ∀ rows ∈ b.body.map Statement.rows, ∀ row ∈ rows, row ≠ [] := by
    intro rows hrows
    obtain ⟨s, _, rfl⟩ := List.mem_map.mp hrows
    exact s.row_ne_nil
  have hlaid := laid_of_rows hne (List.IsChain.tail hapart)
  rw [List.map_map] at hlaid
  exact ⟨b.braces.opening, b.braces.closing, _, htext, hkeys, hline _ List.mem_cons_self,
    b.braces.opens, b.braces.closes, hspelled, hlaid⟩

theorem DocumentTree.flatten_rows (t : DocumentTree) :
    t.rows.flatten = (t.blocks.map fun b => b.rows.flatten).flatten := by
  rw [rows, List.flatMap_def, List.flatten_flatten, List.map_map]
  rfl

theorem DocumentTree.laidOut {t : DocumentTree} (h : InRows t.rows) :
    List.Forall₂ Block.LaidOut t.document (t.blocks.map fun b => b.rows.flatten) := by
  rw [document, List.forall₂_map_left_iff, List.forall₂_map_right_iff, List.forall₂_same]
  intro b hb
  exact BlockTree.laidOut (h.part (List.infix_of_mem_flatten (List.mem_map_of_mem hb)))

theorem DocumentTree.isGlobal_of_mem_tail (t : DocumentTree) :
    ∀ b ∈ t.document.tail, b.isGlobal = false := by
  intro b hb
  rw [document, ← List.map_tail] at hb
  obtain ⟨tree, htree, rfl⟩ := List.mem_map.mp hb
  have hkeys := t.keyed tree htree
  simpa [Block.isGlobal, BlockTree.block] using hkeys

/-- A document written in its rows is read as its blocks. -/
theorem DocumentTree.ofTokens_rows (t : DocumentTree) (h : InRows t.rows) :
    Document.ofTokens t.rows.flatten = .ok t.document := by
  rw [t.flatten_rows]
  exact Document.ofTokens_of_laidOut (laidOut h) t.isGlobal_of_mem_tail

/-- An argument over two lines in front of a body, an empty body in it and another behind it. -/
def nested : DocumentTree where
  blocks :=
    [⟨[], ⟨⟨none, 1, "\x7b", false⟩, ⟨none, 9, "\x7d", false⟩, rfl, rfl⟩,
      [.block ⟨⟨⟨none, 2, "log", false⟩, rfl, rfl⟩, [⟨⟨none, 2, "a\nb", true⟩, rfl, rfl⟩]⟩
        ⟨⟨none, 3, "\x7b", false⟩, ⟨none, 6, "\x7d", false⟩, rfl, rfl⟩
        [.block ⟨⟨⟨none, 4, "output", false⟩, rfl, rfl⟩, [⟨⟨none, 4, "file", false⟩, rfl, rfl⟩]⟩
          ⟨⟨none, 4, "\x7b", false⟩, ⟨none, 5, "\x7d", false⟩, rfl, rfl⟩ []],
      .block ⟨⟨⟨none, 7, "servers", false⟩, rfl, rfl⟩, []⟩
        ⟨⟨none, 7, "\x7b", false⟩, ⟨none, 8, "\x7d", false⟩, rfl, rfl⟩ []]⟩,
    ⟨[⟨⟨none, 10, "a.org", false⟩, rfl, rfl⟩, ⟨⟨none, 10, "b.org", false⟩, rfl, rfl⟩],
      ⟨⟨none, 10, "\x7b", false⟩, ⟨none, 12, "\x7d", false⟩, rfl, rfl⟩,
      [.line ⟨⟨⟨none, 11, "tls", false⟩, rfl, rfl⟩, []⟩]⟩]
  keyed := by simp

theorem DocumentTree.ofTokens_nested :
    tokenize none ("\x7b\nlog \"a\nb\" \x7b\noutput file \x7b\n\x7d\n\x7d\nservers \x7b\n" ++
        "\x7d\n\x7d\na.org b.org \x7b\ntls\n\x7d\n") = .ok nested.rows.flatten ∧
      Document.ofTokens nested.rows.flatten = .ok
        [⟨[], [[⟨none, 2, "log", false⟩, ⟨none, 2, "a\nb", true⟩, ⟨none, 3, "\x7b", false⟩,
            ⟨none, 4, "output", false⟩, ⟨none, 4, "file", false⟩, ⟨none, 4, "\x7b", false⟩,
            ⟨none, 5, "\x7d", false⟩, ⟨none, 6, "\x7d", false⟩],
          [⟨none, 7, "servers", false⟩]]⟩,
        ⟨[⟨none, 10, "a.org", false⟩, ⟨none, 10, "b.org", false⟩],
          [[⟨none, 11, "tls", false⟩]]⟩] :=
  ⟨by decide +kernel, nested.ofTokens_rows (by decide +kernel)⟩

end NodeLayers
