import NodeLayers.Proofs.Extension
import NodeLayers.Proofs.Positions
import NodeLayers.Proofs.SegmentRun

namespace NodeLayers

theorem Token.le_depthAfter (t : Token) (n : Nat) : n ≤ t.depthAfter n + 1 := by
  unfold Token.depthAfter
  split
  next => omega
  next => split <;> omega

namespace Cursor

variable {c : Cursor} {depth : Nat}

/-- Inside a block the nesting follows the next token, if there is one. -/
theorem nextInBlock_of_lt (h : depth < c.nesting) :
    (c.ahead = [] ∧ c.nextInBlock depth = (false, c)) ∨
      ∃ t rest, c.ahead = t :: rest ∧
        c.nextInBlock depth = (decide (depth < t.depthAfter c.nesting),
          ⟨t :: c.passed, rest, t.depthAfter c.nesting⟩) := by
  obtain ⟨passed, ahead, n⟩ := c
  cases ahead with
  | nil => exact Or.inl ⟨rfl, nextInBlock_end h⟩
  | cons t rest => exact Or.inr ⟨t, rest, rfl, nextInBlock_inside h⟩

/-- In front of a block the nesting grows by one where the block is entered. -/
theorem nesting_nextInBlock_of_le (h : c.nesting ≤ depth) :
    (c.nextInBlock depth).2.nesting =
      if (c.nextInBlock depth).1 then c.nesting + 1 else c.nesting := by
  rw [nextInBlock, if_neg (Nat.not_lt.mpr h)]
  split
  next => rfl
  next brace hb =>
    obtain ⟨_, _, _, rfl⟩ := next?_eq_some (next?_of_nextOnLine? hb)
    split
    next =>
      split
      next => rfl
      next first hf =>
        obtain ⟨_, _, _, rfl⟩ := next?_eq_some hf
        split <;> rfl
    next => rfl

/-- A stop lies deeper than the block that is left, and there is none behind it only where the block
or the tokens end. -/
theorem nesting_nextInBlock (h : depth ≤ c.nesting) :
    ((c.nextInBlock depth).1 = true → depth < (c.nextInBlock depth).2.nesting) ∧
      ((c.nextInBlock depth).1 = false → (c.nextInBlock depth).2.nesting = depth ∨
        depth < (c.nextInBlock depth).2.nesting ∧ (c.nextInBlock depth).2.ahead = []) := by
  rcases Nat.lt_or_eq_of_le h with hlt | heq
  · rcases nextInBlock_of_lt hlt with ⟨hahead, he⟩ | ⟨t, rest, _, he⟩
    · rw [he]
      exact ⟨nofun, fun _ => Or.inr ⟨hlt, hahead⟩⟩
    · have hcount := t.le_depthAfter c.nesting
      rw [he]
      refine ⟨of_decide_eq_true, fun hge => Or.inl ?_⟩
      have hge' := of_decide_eq_false hge
      simp only
      omega
  · have hnesting := nesting_nextInBlock_of_le (Nat.le_of_eq heq.symm)
    refine ⟨fun hmore => ?_, fun hend => Or.inl ?_⟩
    · rw [hnesting, if_pos hmore]
      omega
    · rw [hnesting, if_neg (by simp [hend]), heq]

theorem nesting_stops (h : depth ≤ c.nesting) :
    (c.stops depth).2.nesting = depth ∨
      depth < (c.stops depth).2.nesting ∧ (c.stops depth).2.ahead = [] := by
  induction c using stops.induct depth with
  | case1 c d hd =>
    have hend := (nesting_nextInBlock h).2
    rw [hd] at hend
    rw [stops_of_false hd]
    exact hend rfl
  | case2 c d hd hlt ih =>
    have hmore := (nesting_nextInBlock h).1
    rw [hd] at hmore
    rw [stops_of_true hd]
    exact ih (Nat.le_of_lt (hmore rfl))

/-- Behind a directive the nesting is what it was in front of it, unless the tokens have run out. -/
theorem nesting_segment (c : Cursor) :
    c.segment.2.nesting = c.nesting ∨
      c.nesting < c.segment.2.nesting ∧ c.segment.2.ahead = [] := by
  rw [segment_snd]
  exact nesting_stops (Nat.le_of_eq (nesting_args c).symm)

/-- On the line a block opens that the tokens behind its brace do not close. -/
def RunsOut (c : Cursor) : Prop :=
  ∃ t as brace first inner, c.OpensBehind t as brace (first :: inner) ∧ first.closes = false ∧
    ∀ body last more, ¬FullBlock (first :: inner) first body last more

theorem RunsOut.nesting_lt (h : c.RunsOut) : c.nesting < c.segment.2.nesting := by
  obtain ⟨t, as, brace, first, inner, hopen, hstays, hnone⟩ := h
  obtain ⟨hargs, hblock⟩ := hopen.args_eq
  obtain ⟨m, hm, hsegment⟩ := segment_of_unclosed hblock (by rw [hargs]) hstays
    (staysInside_of_not_fullBlock hstays hnone)
  rw [hsegment]
  exact Nat.lt_add_of_pos_right hm

theorem runsOut_of_nesting_lt {t : Token} (ht : c.current? = some t)
    (h : c.nesting < c.segment.2.nesting) : c.RunsOut := by
  by_contra hnone
  refine absurd h (Nat.not_lt.mpr (Nat.le_of_eq ?_))
  by_cases hopen : ∃ as brace rest, c.OpensBehind t as brace rest
  · obtain ⟨as, brace, rest, hopen⟩ := hopen
    cases rest with
    | nil => rw [hopen.segment_nil]
    | cons first inner =>
      cases hf : first.closes with
      | true => rw [hopen.segment_empty hf]
      | false =>
        by_cases hfull : ∃ body last more, FullBlock (first :: inner) first body last more
        · obtain ⟨body, last, more, hfull⟩ := hfull
          rw [hopen.segment_full hfull]
        · refine absurd ⟨t, as, brace, first, inner, hopen, hf, fun body last more h => ?_⟩ hnone
          exact hfull ⟨body, last, more, h⟩
  · rw [segment_of_not_opensBehind ht fun as brace rest h => hopen ⟨as, brace, rest, h⟩,
      nesting_args]

end Cursor

namespace Position

/-- The positions that moves lead to from in front of these tokens. A directive can be entered: its
tokens have positions of their own. -/
inductive Reachable : List Token → Position → Prop
  | start (ts) : Reachable ts ⟨0, 0⟩
  | move {ts p m r} : Reachable ts p → Moves ts p m r → Reachable ts r.2
  | enter {ts p} : Reachable ts p → Reachable (p.cursor ts).segment.1 ⟨0, 0⟩

variable {ts : List Token} {p : Position}

theorem Reachable.within (h : Reachable ts p) : p.index ≤ ts.length := by
  induction h with
  | start ts => exact Nat.zero_le _
  | move _ hm ih => exact (hm.eq ih).2
  | enter _ _ => exact Nat.zero_le _

theorem nesting_of_moves_segment {q : Position} (hp : p.index ≤ ts.length)
    (h : Moves ts p .segment (true, q)) :
    q.nesting = p.nesting ∨ p.nesting < q.nesting ∧ q.index = ts.length := by
  obtain ⟨he, hq⟩ := h.eq hp
  have hsegment : (p.cursor ts).segment.2 = q.cursor ts := congrArg Prod.snd he
  have hnesting := Cursor.nesting_segment (p.cursor ts)
  rw [hsegment] at hnesting
  refine hnesting.imp_right fun ⟨hdeeper, hend⟩ => ⟨hdeeper, Nat.le_antisymm hq ?_⟩
  exact List.drop_eq_nil_iff.mp hend

/-- A cursor that stands at a position that moves lead to. -/
def Leads (ts : List Token) (c : Cursor) : Prop :=
  ∃ p, Reachable ts p ∧ p.cursor ts = c

theorem Leads.move {c : Cursor} (h : Leads ts c) (m : Move) : Leads ts (c.move m).2 := by
  obtain ⟨p, hp, rfl⟩ := h
  obtain ⟨r, hr⟩ := exists_moves hp.within m
  rw [(hr.eq hp.within).1]
  exact ⟨r.2, hp.move hr, rfl⟩

theorem Leads.next? {c d : Cursor} (h : Leads ts c) (hd : c.next? = some d) : Leads ts d := by
  have hmove := h.move .next
  rwa [Cursor.move, hd] at hmove

theorem Leads.args {c : Cursor} (h : Leads ts c) : Leads ts c.args.2 := by
  induction c using Cursor.args.induct with
  | case1 c hnone => rwa [Cursor.args_of_none hnone]
  | case2 c d hd hlt ih =>
    rw [Cursor.args_of_some hd]
    have hmove := h.move .nextArg
    rw [Cursor.move, hd] at hmove
    exact ih hmove

theorem Leads.blockKeys {c brace : Cursor} {keys : List Token} (h : Leads ts c)
    (hk : c.blockKeys = .ok (keys, brace)) : Leads ts brace := by
  unfold Cursor.blockKeys at hk
  split at hk
  next => cases hk; exact h
  next =>
    simp only at hk
    split at hk
    next => cases hk; exact h.args.move .next
    next => cases hk

end Position

namespace Document

/-- How far a document has been read: up to a block, which may be without keys if it is the first
one, or into the block that opens here. -/
inductive Stage
  | upTo (first : Bool)
  | inside (opening : Location)

/-- The cursors from which the reader of a document goes on. -/
inductive Reads (ts : List Token) : Stage → Cursor → Prop
  | start : Reads ts (.upTo true) (.ofTokens ts)
  | enter {first c d keys brace} : Reads ts (.upTo first) c → c.next? = some d →
      d.blockKeys = .ok (keys, brace) → (keys.isEmpty && !first) = false →
      Reads ts (.inside brace.location) brace
  | pass {opening c d} : Reads ts (.inside opening) c → c.next? = some d → d.atClose = false →
      d.atOpen = false → d.segment.2.nesting = 0 → Reads ts (.inside opening) d.segment.2
  | leave {opening c d} : Reads ts (.inside opening) c → c.next? = some d → d.atClose = true →
      Reads ts (.upTo false) d

/-- In the block that opens here, a directive is read from this cursor on. -/
def ReadsSegment (ts : List Token) (opening : Location) (d : Cursor) : Prop :=
  ∃ c, Reads ts (.inside opening) c ∧ c.next? = some d ∧ d.atClose = false ∧ d.atOpen = false

/-- Whether the rest of the document is accepted. -/
def Stage.outcome (c : Cursor) : Stage → Except ParseError Unit
  | .upTo first => (c.blocks first).map fun _ => ()
  | .inside opening =>
    (c.blockSegments opening).bind fun r => (r.2.blocks false).map fun _ => ()

variable {ts : List Token} {stage : Stage} {c d : Cursor} {opening : Location}

theorem Stage.outcome_enter {first : Bool} {keys : List Token} {brace : Cursor}
    (h : c.next? = some d) (hk : d.blockKeys = .ok (keys, brace))
    (hl : (keys.isEmpty && !first) = false) :
    (Stage.inside brace.location).outcome brace = (Stage.upTo first).outcome c := by
  simp only [Stage.outcome]
  cases hs : brace.blockSegments brace.location with
  | error e =>
    rw [Cursor.blocks_of_segments_error h hk hl hs]
    rfl
  | ok r =>
    obtain ⟨segments, last⟩ := r
    rw [Cursor.blocks_of_block h hk hl hs]
    simp only [Except.bind]
    cases last.blocks false <;> rfl

/-- The reader goes on as the rest of the document says. -/
theorem Reads.outcome (h : Reads ts stage c) :
    stage.outcome c = (ofTokens ts).map fun _ => () := by
  induction h with
  | start => rfl
  | enter _ hd hk hl ih => rw [Stage.outcome_enter hd hk hl, ih]
  | @pass opening c d _ hd hc ho hn ih =>
    rw [← ih, Stage.outcome, Stage.outcome, Cursor.blockSegments_of_segment hd hc ho hn]
    cases d.segment.2.blockSegments opening <;> rfl
  | leave _ hd hc ih =>
    rw [← ih, Stage.outcome, Stage.outcome, Cursor.blockSegments_of_close hd hc]
    rfl

theorem nesting_of_next? (h : c.next? = some d) : d.nesting = c.nesting := by
  obtain ⟨_, _, _, rfl⟩ := Cursor.next?_eq_some h
  rfl

theorem Reads.nesting (h : Reads ts stage c) : c.nesting = 0 := by
  induction h with
  | start => rfl
  | enter _ hd hk _ ih => rw [Cursor.nesting_of_blockKeys hk, nesting_of_next? hd, ih]
  | pass _ _ _ _ hn _ => exact hn
  | leave _ hd _ ih => rw [nesting_of_next? hd, ih]

theorem Reads.leads (h : Reads ts stage c) : Position.Leads ts c := by
  induction h with
  | start => exact ⟨⟨0, 0⟩, .start ts, rfl⟩
  | enter _ hd hk _ ih => exact (ih.next? hd).blockKeys hk
  | pass _ hd _ _ _ ih => exact (ih.next? hd).move .segment
  | leave _ hd _ ih => exact ih.next? hd

/-- No token is left for the block that opens here, or a directive in it ends with a nesting. -/
def LeftOpen (ts : List Token) (opening : Location) : Prop :=
  (∃ c, Reads ts (.inside opening) c ∧ c.next? = none) ∨
    ∃ d, ReadsSegment ts opening d ∧ 0 < d.segment.2.nesting

theorem LeftOpen.ofTokens_eq (h : LeftOpen ts opening) :
    ofTokens ts = .error ⟨opening, .unclosedBlock⟩ := by
  suffices hrest : ∃ c, Reads ts (.inside opening) c ∧
      c.blockSegments opening = .error ⟨opening, .unclosedBlock⟩ by
    obtain ⟨c, hreads, hc⟩ := hrest
    have houtcome := hreads.outcome
    rw [Stage.outcome, hc] at houtcome
    cases hts : ofTokens ts with
    | error e =>
      rw [hts] at houtcome
      cases houtcome
      rfl
    | ok blocks =>
      rw [hts] at houtcome
      cases houtcome
  rcases h with ⟨c, hreads, hnone⟩ | ⟨d, ⟨c, hreads, hd, hc, ho⟩, hn⟩
  · exact ⟨c, hreads, Cursor.blockSegments_of_none hnone⟩
  · exact ⟨c, hreads, Cursor.blockSegments_of_unclosed hd hc ho hn⟩

/-- Behind the directives of a block the reader goes on, unless the block was left open. -/
theorem Reads.of_blockSegments (h : Reads ts (.inside opening) c) :
    (∀ segments last, c.blockSegments opening = .ok (segments, last) →
        Reads ts (.upTo false) last) ∧
      ∀ l, c.blockSegments opening = .error ⟨l, .unclosedBlock⟩ → LeftOpen ts l := by
  fun_induction Cursor.blockSegments c opening with
  | case1 c hnone =>
    refine ⟨fun _ _ hs => ?_, fun l hl => ?_⟩
    · cases hs
    · cases hl
      exact Or.inl ⟨c, h, hnone⟩
  | case2 c d hd hc =>
    refine ⟨fun segments last hs => ?_, fun _ hl => ?_⟩
    · cases hs
      exact h.leave hd hc
    · cases hl
  | case3 =>
    refine ⟨fun _ _ hs => ?_, fun _ hl => ?_⟩
    · cases hs
    · cases hl
  | case4 c d hd hc ho hn =>
    refine ⟨fun _ _ hs => ?_, fun l hl => ?_⟩
    · cases hs
    · cases hl
      exact Or.inr ⟨d, ⟨c, h, hd, by simpa using hc, by simpa using ho⟩, hn⟩
  | case5 c d hd hc ho hn _ _ e he ih =>
    have hpass := h.pass hd (by simpa using hc) (by simpa using ho) (by simpa using hn)
    refine ⟨fun _ _ hs => ?_, fun l hl => (ih hpass).2 l (he.trans hl)⟩
    cases hs
  | case6 c d hd hc ho hn _ _ inner e hinner ih =>
    have hpass := h.pass hd (by simpa using hc) (by simpa using ho) (by simpa using hn)
    refine ⟨fun segments last hs => ?_, fun _ hl => ?_⟩
    · cases hs
      exact (ih hpass).1 inner e hinner
    · cases hl

theorem blockKeys_ne_unclosedBlock (c : Cursor) (l : Location) :
    c.blockKeys ≠ .error ⟨l, .unclosedBlock⟩ := by
  unfold Cursor.blockKeys
  split
  next => nofun
  next =>
    simp only
    split
    next => nofun
    next => nofun

theorem Reads.leftOpen_of_blocks {first : Bool} {l : Location} (h : Reads ts (.upTo first) c)
    (hs : c.blocks first = .error ⟨l, .unclosedBlock⟩) : LeftOpen ts l := by
  fun_induction Cursor.blocks c first with
  | case1 => cases hs
  | case2 c first d hd e hk =>
    cases hs
    exact absurd hk (blockKeys_ne_unclosedBlock d l)
  | case3 => cases hs
  | case4 c first d hd keys brace hk hl e he =>
    cases hs
    exact (h.enter hd hk (by simpa using hl)).of_blockSegments.2 l he
  | case5 c first d hd keys brace hk hl segments last hsegments _ _ _ e he ih =>
    cases hs
    exact ih ((h.enter hd hk (by simpa using hl)).of_blockSegments.1 segments last hsegments) he
  | case6 => cases hs

end Document

open Document Position in
/-- Wherever moves lead, the position is within the tokens, which stay the same; no move counts a
nesting below zero, and one that looks for an argument in vain changes nothing. Behind a directive
the nesting is what it was, or else the tokens have run out. In a document each directive is read
with a nesting of zero, so that a nesting behind it tells that the tokens ran out inside its block;
for an unclosed block a document is refused just then, or when no token is left where a directive
or the closing brace should stand. -/
theorem nesting_tells_unclosed (ts : List Token) :
    (∀ p, Reachable ts p →
      p.index ≤ ts.length ∧ (p.cursor ts).tokens = ts ∧ (∀ m, ∃ r, Moves ts p m r) ∧
        (∀ m r, Moves ts p m r → (p.cursor ts).move m = (r.1, r.2.cursor ts)) ∧
        (∀ q, Moves ts p .nextArg (false, q) → q = p) ∧
        ∀ q, Moves ts p .segment (true, q) →
          q.nesting = p.nesting ∨ p.nesting < q.nesting ∧ q.index = ts.length) ∧
      (∀ opening d, ReadsSegment ts opening d →
        (∃ p, Reachable ts p ∧ p.cursor ts = d) ∧ d.nesting = 0 ∧
          (0 < d.segment.2.nesting ↔ d.RunsOut) ∧
          (0 < d.segment.2.nesting → d.segment.2.ahead = [])) ∧
      ∀ opening, LeftOpen ts opening ↔ ofTokens ts = .error ⟨opening, .unclosedBlock⟩ := by
  refine ⟨fun p hp => ⟨hp.within, tokens_cursor, exists_moves hp.within,
    fun m r hr => (hr.eq hp.within).1, fun q hq => ?_, fun q => nesting_of_moves_segment hp.within⟩,
    fun opening d hd => ?_, fun opening => ⟨LeftOpen.ofTokens_eq, Reads.start.leftOpen_of_blocks⟩⟩
  · generalize hr : (false, q) = r at hq
    cases hq
    rcases nextArg_stepped hp.within with ⟨hstay, _⟩ | ⟨e, hstep, _⟩
    · exact congrArg Prod.snd (hr.trans hstay)
    · cases hr.trans hstep
  · obtain ⟨c, hreads, hnext, _, _⟩ := hd
    obtain ⟨t, rest, _, rfl⟩ := Cursor.next?_eq_some hnext
    have hzero := hreads.nesting
    refine ⟨hreads.leads.next? hnext, hzero, ⟨fun hn => ?_, fun hruns => ?_⟩, fun hn => ?_⟩
    · exact Cursor.runsOut_of_nesting_lt rfl (hzero.symm ▸ hn)
    · exact Nat.zero_lt_of_lt hruns.nesting_lt
    · rcases Cursor.nesting_segment ⟨t :: c.passed, rest, c.nesting⟩ with hsame | ⟨_, hend⟩
      · rw [hsame] at hn
        exact absurd hzero (Nat.ne_of_gt hn)
      · exact hend

-- having gone back in front of it, the cursor counts the same brace again
example :
    let ts : List Token :=
      [⟨none, 1, "a", false⟩, ⟨none, 1, "\x7b", false⟩, ⟨none, 2, "b", false⟩]
    (Position.mk 1 0).nextInBlock? ts 0 = some (true, ⟨3, 1⟩) ∧
      (Position.mk 1 1).nextInBlock? ts 0 = some (true, ⟨2, 2⟩) := by
  decide +kernel

end NodeLayers
