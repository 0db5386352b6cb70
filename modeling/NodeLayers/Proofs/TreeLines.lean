import NodeLayers.Proofs.Concatenation
import NodeLayers.Proofs.DocumentTree

namespace NodeLayers

/-- The token on another line. -/
def Token.reline (f : Nat → Nat) (t : Token) : Token :=
  { t with line := f t.line }

section reline

variable (f : Nat → Nat)

def PlainToken.reline (p : PlainToken) : PlainToken :=
  ⟨p.token.reline f, p.closes, p.opens⟩

def Braces.reline (b : Braces) : Braces :=
  ⟨b.opening.reline f, b.closing.reline f, b.opens, b.closes⟩

def Heading.reline (h : Heading) : Heading :=
  ⟨h.name.reline f, h.args.map (·.reline f)⟩

mutual

def Statement.reline : Statement → Statement
  | .line heading => .line (heading.reline f)
  | .block heading braces body =>
    .block (heading.reline f) (braces.reline f) (Statement.relineAll body)

def Statement.relineAll : List Statement → List Statement
  | [] => []
  | s :: ss => s.reline :: Statement.relineAll ss

end

def BlockTree.reline (b : BlockTree) : BlockTree :=
  ⟨b.keys.map (·.reline f), b.braces.reline f, Statement.relineAll f b.body⟩

/-- The same rows on other lines. -/
def relineRows (rows : List (List Token)) : List (List Token) :=
  rows.map (List.map (Token.reline f))

theorem flatten_relineRows (rows : List (List Token)) :
    (relineRows f rows).flatten = rows.flatten.map (Token.reline f) :=
  List.map_flatten.symm

theorem PlainToken.token_reline (ps : List PlainToken) :
    (ps.map (·.reline f)).map PlainToken.token =
      (ps.map PlainToken.token).map (Token.reline f) := by
  rw [List.map_map, List.map_map]
  rfl

theorem Heading.tokens_reline (h : Heading) :
    (h.reline f).tokens = h.tokens.map (Token.reline f) :=
  congrArg (h.name.token.reline f :: ·) (PlainToken.token_reline f h.args)

mutual

-- by the tree, as its rows are
theorem Statement.rows_reline : (s : Statement) → (s.reline f).rows = relineRows f s.rows
  | .line heading => by
    rw [reline, rows, rows, Heading.tokens_reline]
    rfl
  | .block heading braces body => by
    rw [reline, rows, rows, Heading.tokens_reline, Statement.rowsOf_reline body]
    simp [relineRows, Braces.reline]

theorem Statement.rowsOf_reline : (ss : List Statement) →
    Statement.rowsOf (Statement.relineAll f ss) = relineRows f (Statement.rowsOf ss)
  | [] => rfl
  | s :: ss => by
    rw [relineAll, rowsOf, rowsOf, s.rows_reline, Statement.rowsOf_reline ss]
    exact List.map_append.symm

end

theorem keptBlock_map (brace last : Token) (body : List Token) :
    keptBlock (brace.reline f) (body.map (Token.reline f)) (last.reline f) =
      (keptBlock brace body last).map (Token.reline f) := by
  cases body with
  | nil => rfl
  | cons t body => simp [keptBlock]

theorem Statement.segment_reline (s : Statement) :
    (s.reline f).segment = s.segment.map (Token.reline f) := by
  cases s with
  | line heading => exact heading.tokens_reline f
  | block heading braces body =>
    rw [reline, segment_block, segment_block, List.map_append, ← keptBlock_map,
      Heading.tokens_reline, rowsOf_reline, flatten_relineRows]
    rfl

theorem Statement.relineAll_eq (ss : List Statement) :
    Statement.relineAll f ss = ss.map (·.reline f) := by
  induction ss with
  | nil => rfl
  | cons s ss ih => rw [relineAll, ih, List.map_cons]

theorem BlockTree.rows_reline (b : BlockTree) : (b.reline f).rows = relineRows f b.rows := by
  rw [reline, rows, rows, Statement.rowsOf_reline, PlainToken.token_reline]
  simp [relineRows, Braces.reline]

end reline

section rows

variable {rows more : List (List Token)}

theorem oneLine_lower (m : Nat) (ts : List Token) : OneLine (ts.map (·.lower m)) ↔ OneLine ts := by
  simp only [OneLine, List.isChain_map, Token.sharesLine_lower]

theorem endsLine_lower (m : Nat) (ts us : List Token) :
    EndsLine (ts.map (·.lower m)) (us.map (·.lower m)) ↔ EndsLine ts us := by
  simp [EndsLine, Token.sharesLine_lower]

theorem inRows_lower (m : Nat) : InRows (relineRows (· + m) rows) ↔ InRows rows := by
  refine and_congr ?_ ?_
  · rw [relineRows, List.forall_mem_map]
    exact forall₂_congr fun row _ => oneLine_lower m row
  · rw [relineRows, List.isChain_map]
    exact List.IsChain.iff fun row next => endsLine_lower m row next

theorem sharesLine_of_above {t u : Token} (h : t.lastLine < u.line) : t.sharesLine u = false := by
  have hline : ¬u.line ≤ t.lastLine := Nat.not_le.mpr h
  simp [Token.sharesLine, hline]

theorem InRows.append (h : InRows rows) (h' : InRows more)
    (habove : ∀ t ∈ rows.flatten, ∀ u ∈ more.flatten, t.lastLine < u.line) :
    InRows (rows ++ more) := by
  refine ⟨fun row hrow => ?_, List.isChain_append.mpr ⟨h.2, h'.2, fun row hrow next hnext => ?_⟩⟩
  · exact (List.mem_append.mp hrow).elim (h.1 row) (h'.1 row)
  · intro t ht u hu
    have htmem := List.mem_flatten_of_mem (List.mem_of_getLast? hrow) (List.mem_of_getLast? ht)
    have humem := List.mem_flatten_of_mem (List.mem_of_head? hnext) (List.mem_of_head? hu)
    exact sharesLine_of_above (habove t htmem u humem)

end rows

end NodeLayers
