import NodeLayers.Proofs.Spelling

namespace NodeLayers

namespace Cursor

/-- The same place with more tokens behind the last one. -/
def extend (c : Cursor) (more : List Token) : Cursor :=
  { c with ahead := c.ahead ++ more }

variable {c d : Cursor} {more : List Token}

@[simp] theorem current?_extend : (c.extend more).current? = c.current? := rfl

@[simp] theorem nesting_extend : (c.extend more).nesting = c.nesting := rfl

@[simp] theorem atOpen_extend : (c.extend more).atOpen = c.atOpen := rfl

@[simp] theorem atClose_extend : (c.extend more).atClose = c.atClose := rfl

theorem location_extend {t : Token} (h : c.current? = some t) :
    (c.extend more).location = c.location := by
  rw [location, location, current?_extend, h]
  rfl

theorem next?_extend (h : c.next? = some d) : (c.extend more).next? = some (d.extend more) := by
  obtain ⟨u, rest, hu, rfl⟩ := next?_eq_some h
  rw [next?, extend, hu]
  rfl

theorem nextSharesLine_extend (h : c.ahead ≠ []) :
    (c.extend more).nextSharesLine = c.nextSharesLine := by
  obtain ⟨u, rest, hu⟩ := List.exists_cons_of_ne_nil h
  rw [nextSharesLine, nextSharesLine, current?_extend, extend, hu]
  cases c.current? <;> rfl

theorem opensBlock_extend (h : c.ahead ≠ []) : (c.extend more).opensBlock = c.opensBlock := by
  obtain ⟨u, rest, hu⟩ := List.exists_cons_of_ne_nil h
  rw [opensBlock, opensBlock, current?_extend, extend, hu]
  cases c.current? <;> rfl

theorem nextOnLine?_extend (h : c.ahead ≠ []) :
    (c.extend more).nextOnLine? = c.nextOnLine?.map (·.extend more) := by
  obtain ⟨u, rest, hu⟩ := List.exists_cons_of_ne_nil h
  have hnext : c.next? = some ⟨u :: c.passed, rest, c.nesting⟩ := by rw [next?, hu]
  rw [nextOnLine?, nextOnLine?, nextSharesLine_extend h, next?_extend hnext, hnext]
  split <;> rfl

theorem nextArg?_extend (h : c.ahead ≠ []) :
    (c.extend more).nextArg? = c.nextArg?.map (·.extend more) := by
  rw [nextArg?, nextArg?, nextOnLine?_extend h, Option.filter_map]
  rfl

theorem countBrace_extend : (c.extend more).countBrace = c.countBrace.extend more := by
  rw [countBrace, countBrace, atClose_extend, atOpen_extend]
  split
  next => rfl
  next => split <;> rfl

theorem args_extend (more : List Token) (h : c.args.2.ahead ≠ []) :
    (c.extend more).args = (c.args.1, c.args.2.extend more) := by
  fun_induction args c with
  | case1 c hn =>
    apply args_of_none
    rw [nextArg?_extend h, hn]
    rfl
  | case2 c d hd hlt rest ih =>
    have hc : c.ahead ≠ [] := by
      obtain ⟨u, ahead, hu, _⟩ := nextArg?_eq_some hd
      rw [hu]
      exact List.cons_ne_nil u ahead
    have hnext : (c.extend more).nextArg? = some (d.extend more) := by
      rw [nextArg?_extend hc, hd]
      rfl
    rw [args_of_some hnext, ih h]
    rfl

theorem ahead_ne_nil_of_nextInBlock {depth : Nat} {b : Bool} (h : c.nextInBlock depth = (b, d))
    (ha : d.ahead ≠ []) : c.ahead ≠ [] := by
  intro hc
  have hle := length_ahead_nextInBlock_le c depth
  rw [h, hc] at hle
  exact ha (List.length_eq_zero_iff.mp (Nat.le_zero.mp hle))

theorem nextInBlock_extend {depth : Nat} {b : Bool} (h : c.nextInBlock depth = (b, d))
    (ha : d.ahead ≠ []) : (c.extend more).nextInBlock depth = (b, d.extend more) := by
  have hc := ahead_ne_nil_of_nextInBlock h ha
  unfold nextInBlock at h ⊢
  rw [nesting_extend]
  split at h
  next hlt =>
    rw [if_pos hlt]
    cases hn : c.next? with
    | none => exact absurd (next?_eq_none hn) hc
    | some e =>
      rw [hn] at h
      cases h
      rw [next?_extend hn]
      simp only [countBrace_extend, nesting_extend]
  next hge =>
    rw [if_neg hge, nextOnLine?_extend hc]
    cases hn : c.nextOnLine? with
    | none =>
      rw [hn] at h
      cases h
      rfl
    | some brace =>
      rw [hn] at h
      simp only [Option.map_some] at h ⊢
      split at h
      next hopen =>
        have hopen' : (brace.extend more).atOpen = true := hopen
        rw [if_pos hopen']
        cases hfirst : brace.next? with
        | none =>
          rw [hfirst] at h
          cases h
          exact absurd (next?_eq_none hfirst) ha
        | some first =>
          rw [hfirst] at h
          rw [next?_extend hfirst]
          simp only at h ⊢
          split at h
          next hclose =>
            have hclose' : (first.extend more).atClose = true := hclose
            cases h
            rw [if_pos hclose']
          next hclose =>
            have hclose' : ¬(first.extend more).atClose = true := hclose
            cases h
            rw [if_neg hclose']
            rfl
      next hopen =>
        have hopen' : ¬(brace.extend more).atOpen = true := hopen
        cases h
        rw [if_neg hopen']

theorem ahead_ne_nil_of_stops {depth : Nat} (h : (c.stops depth).2.ahead ≠ []) :
    c.ahead ≠ [] := by
  intro hc
  have hle := length_ahead_stops_le c depth
  rw [hc] at hle
  exact h (List.length_eq_zero_iff.mp (Nat.le_zero.mp hle))

theorem stops_extend {depth : Nat} (h : (c.stops depth).2.ahead ≠ []) :
    (c.extend more).stops depth = ((c.stops depth).1, (c.stops depth).2.extend more) := by
  fun_induction stops c depth with
  | case1 c d hd => exact stops_of_false (nextInBlock_extend hd h)
  | case2 c d hd hlt rest ih =>
    rw [stops_of_true (nextInBlock_extend hd (ahead_ne_nil_of_stops h)), ih h]
    rfl

/-- A directive with a token behind it reads on as before whatever else follows. -/
theorem segment_extend (more : List Token) (h : c.segment.2.ahead ≠ []) :
    (c.extend more).segment = (c.segment.1, c.segment.2.extend more) := by
  cases hmove : c.args.2.nextInBlock c.nesting with
  | mk b d =>
    have hend : d.ahead ≠ [] := by
      cases b with
      | false =>
        rw [segment_of_false hmove] at h
        exact h
      | true =>
        rw [segment_of_true hmove] at h
        exact ahead_ne_nil_of_stops h
    have hargs := args_extend more (ahead_ne_nil_of_nextInBlock hmove hend)
    have hmove' : (c.extend more).args.2.nextInBlock (c.extend more).nesting =
        (b, d.extend more) := by
      rw [hargs]
      exact nextInBlock_extend hmove hend
    cases b with
    | false =>
      rw [segment_of_false hmove', segment_of_false hmove, hargs]
      rfl
    | true =>
      rw [segment_of_true hmove] at h
      have hstops : (d.extend more).stops (c.extend more).nesting =
          ((d.stops c.nesting).1, (d.stops c.nesting).2.extend more) := stops_extend h
      rw [segment_of_true hmove', segment_of_true hmove, hargs, hstops]
      rfl

theorem blockKeys_extend {brace : Cursor} {keys : List Token}
    (h : c.blockKeys = .ok (keys, brace)) :
    (c.extend more).blockKeys = .ok (keys, brace.extend more) := by
  unfold blockKeys at h ⊢
  rw [atOpen_extend]
  split at h
  next hopen => cases h; rw [if_pos hopen]
  next hopen =>
    simp only at h
    split at h
    next hb =>
      cases h
      obtain ⟨t, passed, u, rest, he, _, _⟩ := eq_of_opensBlock hb
      have hne : c.args.2.ahead ≠ [] := by
        rw [he]
        exact List.cons_ne_nil u rest
      have hnext : c.args.2.next? = some ⟨u :: t :: passed, rest, c.args.2.nesting⟩ := by
        rw [he]
        rfl
      rw [if_neg hopen, args_extend more hne]
      simp only [opensBlock_extend hne, hb, ↓reduceIte, next?_extend hnext, hnext,
        current?_extend, Option.getD_some]
    next => cases h

theorem blockSegments_extend {opening : Location} {segments : List Segment}
    (h : c.blockSegments opening = .ok (segments, d)) :
    (c.extend more).blockSegments opening = .ok (segments, d.extend more) := by
  fun_induction blockSegments c opening generalizing segments d with
  | case1 => cases h
  | case2 c e he hclose =>
    cases h
    exact blockSegments_of_close (next?_extend he) hclose
  | case3 => cases h
  | case4 => cases h
  | case5 => cases h
  | case6 c e he hclose hopen hnesting _ _ inner last hrest ih =>
    cases h
    have hne : e.segment.2.ahead ≠ [] := by
      obtain ⟨parts, close, hahead, _⟩ := spelled_blockSegments hrest
      rw [hahead]
      simp
    have hsegment := segment_extend more hne
    have hzero : (e.extend more).segment.2.nesting = 0 := by
      rw [hsegment]
      exact Nat.eq_zero_of_not_pos hnesting
    rw [blockSegments_of_segment (next?_extend he) (by simpa using hclose) (by simpa using hopen)
      hzero, hsegment, ih hrest]
    rfl

theorem nesting_of_blockKeys {brace : Cursor} {keys : List Token}
    (h : c.blockKeys = .ok (keys, brace)) : brace.nesting = c.nesting := by
  unfold blockKeys at h
  split at h
  next => cases h; rfl
  next =>
    simp only at h
    split at h
    next =>
      cases h
      cases hn : c.args.2.next? with
      | none => exact nesting_args c
      | some e =>
        obtain ⟨u, rest, _, rfl⟩ := next?_eq_some hn
        exact nesting_args c
    next => cases h

theorem nesting_of_blockSegments {opening : Location} {segments : List Segment}
    (h : c.blockSegments opening = .ok (segments, d)) (hn : c.nesting = 0) : d.nesting = 0 := by
  fun_induction blockSegments c opening generalizing segments d with
  | case1 => cases h
  | case2 c e he hclose =>
    cases h
    obtain ⟨u, rest, _, rfl⟩ := next?_eq_some he
    exact hn
  | case3 => cases h
  | case4 => cases h
  | case5 => cases h
  | case6 c e he hclose hopen hnesting _ _ inner last hrest ih =>
    cases h
    exact ih hrest (Nat.eq_zero_of_not_pos hnesting)

/-- Blocks read to the last token leave a cursor behind it from which whatever follows is read. -/
theorem blocks_extend {first : Bool} {doc : Document} (h : c.blocks first = .ok doc)
    (hn : c.nesting = 0) :
    ∃ e : Cursor, e.ahead = [] ∧ e.nesting = 0 ∧ ∀ more,
      (c.extend more).blocks first =
        ((e.extend more).blocks (first && doc.isEmpty)).map (doc ++ ·) := by
  fun_induction blocks c first generalizing doc with
  | case1 c first he =>
    cases h
    refine ⟨c, next?_eq_none he, hn, fun more => ?_⟩
    rw [List.isEmpty_nil, Bool.and_true]
    cases (c.extend more).blocks first <;> rfl
  | case2 => cases h
  | case3 => cases h
  | case4 => cases h
  | case5 => cases h
  | case6 c first d hd keys brace hk hlate segments last hs _ _ _ rest hrest ih =>
    cases h
    obtain ⟨u, ahead, _, rfl⟩ := next?_eq_some hd
    obtain ⟨b, hb, _⟩ := spelled_blockKeys rfl hk
    have hlast : last.nesting = 0 :=
      nesting_of_blockSegments hs ((nesting_of_blockKeys hk).trans hn)
    obtain ⟨e, hahead, hnesting, hmore⟩ := ih hrest hlast
    refine ⟨e, hahead, hnesting, fun more => ?_⟩
    have hsegments : (brace.extend more).blockSegments (brace.extend more).location =
        .ok (segments, last.extend more) := by
      rw [location_extend hb]
      exact blockSegments_extend hs
    rw [blocks_of_block (next?_extend hd) (blockKeys_extend hk) (by simpa using hlate) hsegments,
      hmore more]
    simp only [Bool.false_and, List.isEmpty_cons, Bool.and_false]
    cases (e.extend more).blocks false <;> rfl

end Cursor

end NodeLayers
