import NodeLayers.Proofs.Moves

namespace NodeLayers

/-- From `n` blocks deep the tokens lead out of the outermost one with their last token, and not
before. -/
def LeavesAtEnd : Nat → List Token → Prop
  | n, [] => n = 0
  | n, t :: ts => 0 < n ∧ LeavesAtEnd (t.depthAfter n) ts

/-- From `n` blocks deep the tokens never lead out of the outermost one. -/
def StaysInside : Nat → List Token → Prop
  | n, [] => 0 < n
  | n, t :: ts => 0 < n ∧ StaysInside (t.depthAfter n) ts

theorem LeavesAtEnd.pos {n : Nat} {ts : List Token} (h : LeavesAtEnd n ts) (hne : ts ≠ []) :
    0 < n := by
  cases ts with
  | nil => exact absurd rfl hne
  | cons t ts => exact h.1

theorem LeavesAtEnd.eq_nil {ts : List Token} (h : LeavesAtEnd 0 ts) : ts = [] := by
  cases ts with
  | nil => rfl
  | cons t ts => exact absurd h.1 (Nat.lt_irrefl 0)

theorem StaysInside.pos {n : Nat} {ts : List Token} (h : StaysInside n ts) : 0 < n := by
  cases ts with
  | nil => exact h
  | cons t ts => exact h.1

theorem leavesAtEnd_or_staysInside {n : Nat} (hn : 0 < n) (ts : List Token) :
    (∃ inner last rest, ts = inner ++ last :: rest ∧ LeavesAtEnd n (inner ++ [last])) ∨
      StaysInside n ts := by
  induction ts generalizing n with
  | nil => exact Or.inr hn
  | cons t ts ih =>
    rcases Nat.eq_zero_or_pos (t.depthAfter n) with hzero | hpos
    · exact Or.inl ⟨[], t, ts, rfl, hn, hzero⟩
    · rcases ih hpos with ⟨inner, last, rest, rfl, hl⟩ | hs
      · exact Or.inl ⟨t :: inner, last, rest, rfl, hn, hl⟩
      · exact Or.inr ⟨hn, hs⟩

namespace Cursor

theorem stops_of_leavesAtEnd {inner rest passed : List Token} {last : Token} {depth k : Nat}
    (h : LeavesAtEnd k (inner ++ [last])) :
    stops ⟨passed, inner ++ last :: rest, depth + k⟩ depth =
      (inner, ⟨last :: inner.reverse ++ passed, rest, depth⟩) := by
  induction inner generalizing passed k with
  | nil =>
    obtain ⟨hk, hl⟩ := h
    have hzero : last.depthAfter k = 0 := hl
    have hmove : nextInBlock ⟨passed, last :: rest, depth + k⟩ depth =
        (false, ⟨last :: passed, rest, depth⟩) := by
      rw [nextInBlock_inside (by omega), Token.depthAfter_add last depth hk, hzero]
      simp
    exact stops_of_false hmove
  | cons a inner ih =>
    obtain ⟨hk, hrest⟩ := h
    have hpos : 0 < a.depthAfter k := LeavesAtEnd.pos hrest (by simp)
    have hmove : nextInBlock ⟨passed, a :: (inner ++ last :: rest), depth + k⟩ depth =
        (true, ⟨a :: passed, inner ++ last :: rest, depth + a.depthAfter k⟩) := by
      rw [nextInBlock_inside (by omega), Token.depthAfter_add a depth hk]
      simp [hpos]
    rw [List.cons_append, stops_of_true hmove, ih hrest]
    simp [current?]

theorem stops_of_staysInside {ts : List Token} {k : Nat} (h : StaysInside k ts)
    (passed : List Token) (depth : Nat) :
    ∃ m, 0 < m ∧
      stops ⟨passed, ts, depth + k⟩ depth = (ts, ⟨ts.reverse ++ passed, [], depth + m⟩) := by
  induction ts generalizing passed k with
  | nil =>
    have hk : 0 < k := h
    exact ⟨k, hk, stops_of_false (nextInBlock_end (by omega))⟩
  | cons t ts ih =>
    obtain ⟨hk, hrest⟩ := h
    obtain ⟨m, hm, hstops⟩ := ih hrest (t :: passed)
    have hmove : nextInBlock ⟨passed, t :: ts, depth + k⟩ depth =
        (true, ⟨t :: passed, ts, depth + t.depthAfter k⟩) := by
      rw [nextInBlock_inside (by omega), Token.depthAfter_add t depth hk]
      simp [hrest.pos]
    refine ⟨m, hm, ?_⟩
    rw [stops_of_true hmove, hstops]
    simp [current?]

theorem segment_of_false {c d : Cursor} (h : c.args.2.nextInBlock c.nesting = (false, d)) :
    c.segment = (c.current?.toList ++ c.args.1, d) := by
  rw [segment]
  simp only [nesting_args]
  rw [h]

theorem segment_of_true {c d : Cursor} (h : c.args.2.nextInBlock c.nesting = (true, d)) :
    c.segment =
      (c.current?.toList ++ c.args.1 ++ d.previous?.toList ++ d.current?.toList ++
          (d.stops c.nesting).1 ++ (d.stops c.nesting).2.current?.toList,
        (d.stops c.nesting).2) := by
  rw [segment]
  simp only [nesting_args]
  rw [h]

theorem eq_of_opensBlock {c : Cursor} (h : c.opensBlock = true) :
    ∃ t passed brace rest, c = ⟨t :: passed, brace :: rest, c.nesting⟩ ∧ brace.opens = true ∧
      t.sharesLine brace = true := by
  obtain ⟨passed, ahead, n⟩ := c
  cases passed with
  | nil => cases h
  | cons t passed =>
    cases ahead with
    | nil => cases h
    | cons brace rest =>
      rw [opensBlock_cons, Bool.and_eq_true] at h
      exact ⟨t, passed, brace, rest, rfl, h.1, h.2⟩

theorem opens_of_opensBlock {c : Cursor} {brace : Token} {rest : List Token}
    (h : c.opensBlock = true) (ha : c.ahead = brace :: rest) : brace.opens = true := by
  obtain ⟨_, _, u, _, he, ho, _⟩ := eq_of_opensBlock h
  rw [he] at ha
  obtain ⟨rfl, _⟩ := List.cons.inj ha
  exact ho

section segment

variable {c : Cursor} {brace first last : Token} {inner rest : List Token}

theorem segment_of_line {t : Token} {passed : List Token} (hc : c.args.2.passed = t :: passed)
    (h : c.args.2.opensBlock = false) :
    c.segment = (c.current?.toList ++ c.args.1, c.args.2) := by
  apply segment_of_false
  have hlast : c.args.2 = ⟨t :: passed, c.args.2.ahead, c.nesting⟩ := by
    rw [← nesting_args c, ← hc]
  rw [hlast] at h ⊢
  apply nextInBlock_none (Nat.le_refl _)
  intro u hu
  obtain ⟨rest, hrest⟩ := List.head?_eq_some_iff.mp hu
  rwa [hrest] at h

theorem segment_of_emptyBlock (h : c.args.2.opensBlock = true)
    (ha : c.args.2.ahead = brace :: last :: rest) (hl : last.closes = true) :
    c.segment = (c.current?.toList ++ c.args.1,
      ⟨last :: brace :: c.args.2.passed, rest, c.nesting⟩) := by
  obtain ⟨t, passed, u, ahead, he, ho, hs⟩ := eq_of_opensBlock h
  apply segment_of_false
  rw [he] at ha ⊢
  cases ha
  rw [nesting_args]
  exact nextInBlock_empty (Nat.le_refl _) hs ho hl

theorem segment_of_brokenOff (h : c.args.2.opensBlock = true) (ha : c.args.2.ahead = [brace]) :
    c.segment = (c.current?.toList ++ c.args.1, ⟨brace :: c.args.2.passed, [], c.nesting⟩) := by
  obtain ⟨t, passed, u, ahead, he, ho, hs⟩ := eq_of_opensBlock h
  apply segment_of_false
  rw [he] at ha ⊢
  cases ha
  rw [nesting_args]
  exact nextInBlock_cut (Nat.le_refl _) hs ho

theorem nextInBlock_args (h : c.args.2.opensBlock = true)
    (ha : c.args.2.ahead = brace :: first :: rest) (hf : first.closes = false) :
    c.args.2.nextInBlock c.nesting =
      (true, ⟨first :: brace :: c.args.2.passed, rest, c.nesting + 1⟩) := by
  obtain ⟨t, passed, u, ahead, he, ho, hs⟩ := eq_of_opensBlock h
  rw [he] at ha ⊢
  cases ha
  rw [nesting_args]
  exact nextInBlock_enter (Nat.le_refl _) hs ho hf

theorem segment_of_block (h : c.args.2.opensBlock = true)
    (ha : c.args.2.ahead = brace :: first :: (inner ++ last :: rest)) (hf : first.closes = false)
    (hl : LeavesAtEnd 1 (inner ++ [last])) :
    c.segment = (c.current?.toList ++ c.args.1 ++ brace :: first :: inner ++ [last],
      ⟨last :: inner.reverse ++ first :: brace :: c.args.2.passed, rest, c.nesting⟩) := by
  rw [segment_of_true (nextInBlock_args h ha hf), stops_of_leavesAtEnd hl]
  simp [previous?, current?]

theorem segment_of_unclosed (h : c.args.2.opensBlock = true)
    (ha : c.args.2.ahead = brace :: first :: inner) (hf : first.closes = false)
    (hi : StaysInside 1 inner) :
    ∃ m, 0 < m ∧
      c.segment = (c.current?.toList ++ c.args.1 ++ brace :: first :: inner ++
          ((first :: inner).getLast?).toList,
        ⟨inner.reverse ++ first :: brace :: c.args.2.passed, [], c.nesting + m⟩) := by
  obtain ⟨m, hm, hstops⟩ := stops_of_staysInside hi (first :: brace :: c.args.2.passed)
    c.nesting
  have hlast : (inner.reverse ++ first :: brace :: c.args.2.passed).head? =
      (first :: inner).getLast? := by
    rw [List.getLast?_cons, ← List.head?_reverse, List.head?_append]
    cases inner.reverse.head? <;> rfl
  refine ⟨m, hm, ?_⟩
  rw [segment_of_true (nextInBlock_args h ha hf), hstops]
  simp [previous?, current?, hlast]

end segment

/-- How the directive at the current token can end: with its line, with a block that is empty, full
or never closed, or at an opening brace behind which nothing follows. -/
inductive Segmented (c : Cursor) : Segment → Cursor → Prop
  | line : c.args.2.opensBlock = false → Segmented c (c.current?.toList ++ c.args.1) c.args.2
  | emptyBlock {brace last rest} : c.args.2.opensBlock = true →
      c.args.2.ahead = brace :: last :: rest → last.closes = true →
      Segmented c (c.current?.toList ++ c.args.1)
        ⟨last :: brace :: c.args.2.passed, rest, c.nesting⟩
  | brokenOff {brace} : c.args.2.opensBlock = true → c.args.2.ahead = [brace] →
      Segmented c (c.current?.toList ++ c.args.1) ⟨brace :: c.args.2.passed, [], c.nesting⟩
  | block {brace first inner last rest} : c.args.2.opensBlock = true →
      c.args.2.ahead = brace :: first :: (inner ++ last :: rest) → first.closes = false →
      LeavesAtEnd 1 (inner ++ [last]) →
      Segmented c (c.current?.toList ++ c.args.1 ++ brace :: first :: inner ++ [last])
        ⟨last :: inner.reverse ++ first :: brace :: c.args.2.passed, rest, c.nesting⟩
  | unclosed {brace first inner m} : c.args.2.opensBlock = true →
      c.args.2.ahead = brace :: first :: inner → first.closes = false → StaysInside 1 inner →
      0 < m →
      Segmented c
        (c.current?.toList ++ c.args.1 ++ brace :: first :: inner ++
          ((first :: inner).getLast?).toList)
        ⟨inner.reverse ++ first :: brace :: c.args.2.passed, [], c.nesting + m⟩

theorem segmented {c : Cursor} (h : c.passed ≠ []) : Segmented c c.segment.1 c.segment.2 := by
  have hpassed : c.args.2.passed ≠ [] := by simp [passed_args, h]
  obtain ⟨t, passed, hp⟩ := List.exists_cons_of_ne_nil hpassed
  cases hopen : c.args.2.opensBlock with
  | false =>
    rw [segment_of_line hp hopen]
    exact .line hopen
  | true =>
    obtain ⟨_, _, brace, rest, he, _, _⟩ := eq_of_opensBlock hopen
    have ha : c.args.2.ahead = brace :: rest := by rw [he]
    cases rest with
    | nil =>
      rw [segment_of_brokenOff hopen ha]
      exact .brokenOff hopen ha
    | cons first rest =>
      cases hf : first.closes with
      | true =>
        rw [segment_of_emptyBlock hopen ha hf]
        exact .emptyBlock hopen ha hf
      | false =>
        rcases leavesAtEnd_or_staysInside Nat.one_pos rest with ⟨inner, last, rest, rfl, hl⟩ | hi
        · rw [segment_of_block hopen ha hf hl]
          exact .block hopen ha hf hl
        · obtain ⟨m, hm, hs⟩ := segment_of_unclosed hopen ha hf hi
          rw [hs]
          exact .unclosed hopen ha hf hi hm

end Cursor

end NodeLayers
