import NodeLayers.Proofs.MatchingBrace

namespace NodeLayers

/-- What a cursor can be asked to do. -/
inductive Move
  | next
  | prev
  | nextArg
  | nextInBlock (depth : Nat)
  | segment
deriving DecidableEq, Repr

/-- A cursor that has nowhere to go stays where it is. -/
def Cursor.orStay (c : Cursor) (d : Option Cursor) : Bool × Cursor :=
  (d.isSome, d.getD c)

/-- Whether a move finds what it looks for, and where it leads. -/
def Cursor.move (c : Cursor) : Move → Bool × Cursor
  | .next => c.orStay c.next?
  | .prev => c.orStay c.prev?
  | .nextArg => c.orStay c.nextArg?
  | .nextInBlock depth => c.nextInBlock depth
  | .segment => (true, c.segment.2)

/-- A place in a list of tokens, by the number of tokens in front of it, and the number of blocks
that are open there. -/
structure Position where
  index : Nat
  nesting : Nat
deriving DecidableEq, Repr

namespace Position

section moves

variable (ts : List Token) (p : Position)

def cursor : Cursor :=
  ⟨(ts.take p.index).reverse, ts.drop p.index, p.nesting⟩

def current? : Option Token :=
  if p.index = 0 then none else ts[p.index - 1]?

def atOpen : Bool :=
  (p.current? ts).any Token.opens

def atClose : Bool :=
  (p.current? ts).any Token.closes

def next : Bool × Position :=
  if p.index < ts.length then (true, { p with index := p.index + 1 }) else (false, p)

def prev : Bool × Position :=
  if 0 < p.index then (true, { p with index := p.index - 1 }) else (false, p)

def nextOnLine : Bool × Position :=
  if p.index = 0 then p.next ts
  else
    match p.current? ts, ts[p.index]? with
    | some t, some u => if t.sharesLine u then p.next ts else (false, p)
    | _, _ => (false, p)

/-- One token on along the line, and back again from an opening brace. -/
def nextArg : Bool × Position :=
  let r := p.nextOnLine ts
  if !r.1 then r else if r.2.atOpen ts then (false, r.2.prev.2) else r

def enterBlock : Position :=
  { p with nesting := p.nesting + 1 }

/-- One block fewer; where none is open, there is none to leave. -/
def leaveBlock? : Option Position :=
  match p.nesting with
  | 0 => none
  | n + 1 => some { p with nesting := n }

def countBrace? : Option Position :=
  if p.atClose ts then p.leaveBlock?
  else if p.atOpen ts then some p.enterBlock
  else some p

/-- The next stop inside a block, and back again from a token that opens none. A nesting of zero is
not counted down. -/
def nextInBlock? (depth : Nat) : Option (Bool × Position) :=
  if depth < p.nesting then
    let r := p.next ts
    if !r.1 then some r
    else (r.2.countBrace? ts).map fun q => (decide (depth < q.nesting), q)
  else
    let brace := p.nextOnLine ts
    if !brace.1 then some brace
    else if brace.2.atOpen ts then
      let first := brace.2.next ts
      if !first.1 || first.2.atClose ts then some (false, first.2)
      else some (true, first.2.enterBlock)
    else some (false, brace.2.prev.2)

end moves

/-- To the last argument on the line. -/
inductive Args (ts : List Token) : Position → Position → Prop
  | done {p q} : p.nextArg ts = (false, q) → Args ts p q
  | more {p q r} : p.nextArg ts = (true, q) → Args ts q r → Args ts p r

/-- From stop to stop, to the end of a block. -/
inductive Stops (ts : List Token) (depth : Nat) : Position → Position → Prop
  | done {p q} : p.nextInBlock? ts depth = some (false, q) → Stops ts depth p q
  | more {p q r} : p.nextInBlock? ts depth = some (true, q) → Stops ts depth q r →
      Stops ts depth p r

/-- The moves, one token at a time. -/
inductive Moves (ts : List Token) (p : Position) : Move → Bool × Position → Prop
  | next : Moves ts p .next (p.next ts)
  | prev : Moves ts p .prev p.prev
  | nextArg : Moves ts p .nextArg (p.nextArg ts)
  | nextInBlock {depth r} : p.nextInBlock? ts depth = some r → Moves ts p (.nextInBlock depth) r
  | segment {a q} : Args ts p a → Stops ts a.nesting a q → Moves ts p .segment (true, q)

/-- Nothing was found and the position is the same, or it is one token further on, where the cursor
is too. -/
def Stepped (ts : List Token) (p : Position) (r : Bool × Position) (c : Option Cursor) : Prop :=
  (r = (false, p) ∧ c = none) ∨
    ∃ q, r = (true, q) ∧ c = some (q.cursor ts) ∧ q.index ≤ ts.length ∧ q.prev = (true, p)

section cursor

variable {ts : List Token} {p : Position}

theorem tokens_cursor : (p.cursor ts).tokens = ts := by
  simp [Cursor.tokens, cursor]

theorem current?_cursor (h : p.index ≤ ts.length) : (p.cursor ts).current? = p.current? ts := by
  rw [Cursor.current?, cursor, List.head?_reverse, List.getLast?_take, current?]
  split
  next => rfl
  next hpos =>
    have hlt : p.index - 1 < ts.length := by omega
    rw [List.getElem?_eq_getElem hlt, Option.some_or]

theorem atOpen_cursor (h : p.index ≤ ts.length) : (p.cursor ts).atOpen = p.atOpen ts := by
  rw [Cursor.atOpen, current?_cursor h, atOpen]

theorem atClose_cursor (h : p.index ≤ ts.length) : (p.cursor ts).atClose = p.atClose ts := by
  rw [Cursor.atClose, current?_cursor h, atClose]

theorem next_stepped (ts : List Token) (p : Position) :
    Stepped ts p (p.next ts) (p.cursor ts).next? := by
  unfold next
  split
  next hlt =>
    refine Or.inr ⟨_, rfl, ?_, hlt, ?_⟩
    · rw [cursor, List.drop_eq_getElem_cons hlt, Cursor.next?_cons, cursor,
        List.take_succ_eq_append_getElem hlt, List.reverse_concat]
    · rw [prev, if_pos (Nat.succ_pos _)]
      rfl
  next hlt =>
    refine Or.inl ⟨rfl, ?_⟩
    rw [cursor, List.drop_eq_nil_of_le (Nat.not_lt.mp hlt), Cursor.next?_nil]

theorem nextOnLine_stepped (h : p.index ≤ ts.length) :
    Stepped ts p (p.nextOnLine ts) (p.cursor ts).nextOnLine? := by
  have hnext := next_stepped ts p
  unfold nextOnLine Cursor.nextOnLine?
  split
  next hzero =>
    have hfront : (p.cursor ts).current? = none := by
      rw [current?_cursor h, current?, if_pos hzero]
    have hshares : (p.cursor ts).nextSharesLine = true := by rw [Cursor.nextSharesLine, hfront]
    rwa [if_pos hshares]
  next hpos =>
    split
    next t u ht hu =>
      have hahead : (p.cursor ts).ahead.head? = some u := by rw [cursor, List.head?_drop, hu]
      obtain ⟨rest, hrest⟩ := List.head?_eq_some_iff.mp hahead
      have hshares : (p.cursor ts).nextSharesLine = t.sharesLine u := by
        rw [Cursor.nextSharesLine, current?_cursor h, ht, hrest]
      rw [hshares]
      split
      next => exact hnext
      next => exact Or.inl ⟨rfl, rfl⟩
    next hnone =>
      have hlt : p.index - 1 < ts.length := by omega
      have hcurrent : p.current? ts = some ts[p.index - 1] := by
        rw [current?, if_neg hpos, List.getElem?_eq_getElem hlt]
      have hend : ts.length ≤ p.index := by
        rw [← List.getElem?_eq_none_iff]
        exact Option.eq_none_iff_forall_not_mem.mpr fun u hu => hnone _ u hcurrent hu
      have hnext' : (p.cursor ts).next? = none := by
        rw [cursor, List.drop_eq_nil_of_le hend, Cursor.next?_nil]
      rw [hnext', ite_self]
      exact Or.inl ⟨rfl, rfl⟩

theorem nextArg_stepped (h : p.index ≤ ts.length) :
    Stepped ts p (p.nextArg ts) (p.cursor ts).nextArg? := by
  unfold nextArg Cursor.nextArg?
  rcases nextOnLine_stepped h with ⟨hr, hc⟩ | ⟨q, hr, hc, hq, hback⟩
  · rw [hr, hc]
    exact Or.inl ⟨rfl, rfl⟩
  · rw [hr, hc]
    cases ho : q.atOpen ts with
    | true =>
      refine Or.inl ⟨by simp [ho, hback], ?_⟩
      simp [atOpen_cursor hq, ho]
    | false =>
      refine Or.inr ⟨q, by simp [ho], ?_, hq, hback⟩
      simp [atOpen_cursor hq, ho]

theorem nesting_of_prev {q : Position} (h : q.prev = (true, p)) : q.nesting = p.nesting := by
  unfold prev at h
  split at h
  next => cases h; rfl
  next => cases h

/-- Inside a block there is one to leave. -/
theorem countBrace?_eq (h : p.index ≤ ts.length) (hpos : 0 < p.nesting) :
    ∃ q, p.countBrace? ts = some q ∧ (p.cursor ts).countBrace = q.cursor ts ∧
      q.index = p.index := by
  unfold countBrace? Cursor.countBrace
  rw [atClose_cursor h, atOpen_cursor h]
  obtain ⟨n, hn⟩ := Nat.exists_eq_succ_of_ne_zero (Nat.ne_of_gt hpos)
  split
  next =>
    refine ⟨{ p with nesting := n }, by rw [leaveBlock?, hn], ?_, rfl⟩
    simp [cursor, hn]
  next =>
    split
    next => exact ⟨p.enterBlock, rfl, rfl, rfl⟩
    next => exact ⟨p, rfl, rfl, rfl⟩

theorem nextInBlock?_eq (h : p.index ≤ ts.length) (depth : Nat) :
    ∃ r, p.nextInBlock? ts depth = some r ∧
      (p.cursor ts).nextInBlock depth = (r.1, r.2.cursor ts) ∧ r.2.index ≤ ts.length := by
  unfold nextInBlock? Cursor.nextInBlock
  have hnesting : (p.cursor ts).nesting = p.nesting := rfl
  rw [hnesting]
  split
  next hinside =>
    rcases next_stepped ts p with ⟨hr, hc⟩ | ⟨q, hr, hc, hq, hback⟩
    · rw [hr, hc]
      exact ⟨_, rfl, rfl, h⟩
    · -- the block entered last is still open, so that a closing brace has one to leave
      have hpos : 0 < q.nesting := by rw [nesting_of_prev hback]; omega
      obtain ⟨e, he, hcount, hindex⟩ := countBrace?_eq hq hpos
      rw [hr, hc]
      refine ⟨(decide (depth < e.nesting), e), by simp [he], ?_, hindex ▸ hq⟩
      simp only [hcount]
      rfl
  next =>
    rcases nextOnLine_stepped h with ⟨hr, hc⟩ | ⟨brace, hr, hc, hbrace, hback⟩
    · rw [hr, hc]
      exact ⟨_, rfl, rfl, h⟩
    rw [hr, hc]
    simp only [Bool.not_true, Bool.false_eq_true, ↓reduceIte, atOpen_cursor hbrace]
    split
    next =>
      rcases next_stepped ts brace with ⟨hr', hc'⟩ | ⟨first, hr', hc', hfirst, _⟩
      · rw [hr', hc']
        exact ⟨_, rfl, rfl, hbrace⟩
      · rw [hr', hc']
        simp only [Bool.not_true, Bool.false_or, atClose_cursor hfirst]
        split
        next => exact ⟨_, rfl, rfl, hfirst⟩
        next => exact ⟨_, rfl, rfl, hfirst⟩
    next =>
      rw [hback]
      exact ⟨_, rfl, rfl, h⟩

theorem prev_stepped (h : p.index ≤ ts.length) :
    (p.cursor ts).move .prev = (p.prev.1, p.prev.2.cursor ts) ∧ p.prev.2.index ≤ ts.length := by
  obtain ⟨index, nesting⟩ := p
  cases index with
  | zero => exact ⟨rfl, h⟩
  | succ k =>
    have hlt : k < ts.length := h
    have hback : (cursor ts ⟨k + 1, nesting⟩).prev? = some (cursor ts ⟨k, nesting⟩) := by
      rw [cursor, List.take_succ_eq_append_getElem hlt, List.reverse_concat, cursor,
        List.drop_eq_getElem_cons hlt]
      rfl
    refine ⟨?_, Nat.le_of_lt hlt⟩
    rw [Cursor.move, hback]
    rfl

theorem Stepped.orStay {r : Bool × Position} {c : Option Cursor} (h : p.index ≤ ts.length)
    (hs : Stepped ts p r c) :
    (p.cursor ts).orStay c = (r.1, r.2.cursor ts) ∧ r.2.index ≤ ts.length := by
  rcases hs with ⟨rfl, rfl⟩ | ⟨q, rfl, rfl, hq, _⟩
  · exact ⟨rfl, h⟩
  · exact ⟨rfl, hq⟩

theorem Args.eq {q : Position} (h : Args ts p q) (hp : p.index ≤ ts.length) :
    (p.cursor ts).args.2 = q.cursor ts ∧ q.index ≤ ts.length ∧ q.nesting = p.nesting := by
  induction h with
  | @done p q hq =>
    rcases nextArg_stepped hp with ⟨hr, hc⟩ | ⟨e, hr, _⟩
    · obtain ⟨_, rfl⟩ := Prod.mk.inj (hr.symm.trans hq)
      rw [Cursor.args_of_none hc]
      exact ⟨rfl, hp, rfl⟩
    · cases hr.symm.trans hq
  | @more p q r hq _ ih =>
    rcases nextArg_stepped hp with ⟨hr, _⟩ | ⟨e, hr, hc, he, hback⟩
    · cases hr.symm.trans hq
    · obtain ⟨_, rfl⟩ := Prod.mk.inj (hr.symm.trans hq)
      obtain ⟨hargs, hr, hnesting⟩ := ih he
      rw [Cursor.args_of_some hc]
      exact ⟨hargs, hr, hnesting.trans (nesting_of_prev hback)⟩

theorem exists_args (hp : p.index ≤ ts.length) : ∃ q, Args ts p q := by
  -- the recursion is the cursor's, since only there the tokens ahead get fewer
  generalize hc : p.cursor ts = c
  induction c using Cursor.args.induct generalizing p with
  | case1 c hnone =>
    subst hc
    rcases nextArg_stepped hp with ⟨hr, _⟩ | ⟨e, _, hsome, _⟩
    · exact ⟨p, .done hr⟩
    · cases hnone.symm.trans hsome
  | case2 c d hd hlt ih =>
    subst hc
    rcases nextArg_stepped hp with ⟨_, hnone⟩ | ⟨e, hr, hsome, he, _⟩
    · cases hnone.symm.trans hd
    · obtain rfl := Option.some.inj (hd.symm.trans hsome)
      obtain ⟨q, hq⟩ := ih he rfl
      exact ⟨q, .more hr hq⟩

theorem Stops.eq {q : Position} {depth : Nat} (h : Stops ts depth p q)
    (hp : p.index ≤ ts.length) :
    ((p.cursor ts).stops depth).2 = q.cursor ts ∧ q.index ≤ ts.length := by
  induction h with
  | @done p q hq =>
    obtain ⟨r, hr, hc, hindex⟩ := nextInBlock?_eq hp depth
    obtain rfl := Option.some.inj (hr.symm.trans hq)
    rw [Cursor.stops_of_false hc]
    exact ⟨rfl, hindex⟩
  | @more p q r hq _ ih =>
    obtain ⟨r, hr, hc, hindex⟩ := nextInBlock?_eq hp depth
    obtain rfl := Option.some.inj (hr.symm.trans hq)
    rw [Cursor.stops_of_true hc]
    exact ih hindex

theorem exists_stops (hp : p.index ≤ ts.length) (depth : Nat) : ∃ q, Stops ts depth p q := by
  generalize hc : p.cursor ts = c
  induction c using Cursor.stops.induct depth generalizing p with
  | case1 c d hd =>
    subst hc
    obtain ⟨⟨more, q⟩, hr, he, _⟩ := nextInBlock?_eq hp depth
    obtain ⟨rfl, _⟩ := Prod.mk.inj (hd.symm.trans he)
    exact ⟨q, .done hr⟩
  | case2 c d hd hlt ih =>
    subst hc
    obtain ⟨⟨more, e⟩, hr, he, hindex⟩ := nextInBlock?_eq hp depth
    obtain ⟨rfl, rfl⟩ := Prod.mk.inj (hd.symm.trans he)
    obtain ⟨q, hq⟩ := ih hindex rfl
    exact ⟨q, .more hr hq⟩

/-- Every move can be made, without counting below zero. -/
theorem exists_moves (hp : p.index ≤ ts.length) (m : Move) : ∃ r, Moves ts p m r := by
  cases m with
  | next => exact ⟨_, .next⟩
  | prev => exact ⟨_, .prev⟩
  | nextArg => exact ⟨_, .nextArg⟩
  | nextInBlock depth =>
    obtain ⟨r, hr, _⟩ := nextInBlock?_eq hp depth
    exact ⟨r, .nextInBlock hr⟩
  | segment =>
    obtain ⟨a, ha⟩ := exists_args hp
    obtain ⟨q, hq⟩ := exists_stops (ha.eq hp).2.1 a.nesting
    exact ⟨_, .segment ha hq⟩

/-- The position moves as the cursor does, and stays within the tokens. -/
theorem Moves.eq {m : Move} {r : Bool × Position} (h : Moves ts p m r)
    (hp : p.index ≤ ts.length) :
    (p.cursor ts).move m = (r.1, r.2.cursor ts) ∧ r.2.index ≤ ts.length := by
  cases h with
  | next => exact (next_stepped ts p).orStay hp
  | prev => exact prev_stepped hp
  | nextArg => exact (nextArg_stepped hp).orStay hp
  | @nextInBlock depth _ hr =>
    obtain ⟨s, hs, he, hindex⟩ := nextInBlock?_eq hp depth
    obtain rfl := Option.some.inj (hs.symm.trans hr)
    exact ⟨he, hindex⟩
  | @segment a q ha hq =>
    obtain ⟨hargs, hindex, hnesting⟩ := ha.eq hp
    obtain ⟨hstops, hend⟩ := hq.eq hindex
    refine ⟨?_, hend⟩
    rw [Cursor.move, Cursor.segment_snd, hargs, ← hstops, hnesting]
    rfl

end cursor

end Position

end NodeLayers
