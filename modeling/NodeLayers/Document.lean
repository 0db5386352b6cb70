import NodeLayers.Segment

namespace NodeLayers

/-- A block of directives under the addresses of a site, or under none for the global options. -/
structure Block where
  keys : List Token
  segments : List Segment
deriving DecidableEq, Repr

def Block.isGlobal (b : Block) : Bool :=
  b.keys.isEmpty

def Block.addresses (b : Block) : List String :=
  b.keys.map Token.text

/-- The directive's first token has this text, bare or quoted. -/
def Segment.isNamed (s : Segment) (name : String) : Bool :=
  s.head?.any (·.text == name)

def Block.named (b : Block) (name : String) : List Segment :=
  b.segments.filter (·.isNamed name)

abbrev Document := List Block

namespace Cursor

/-- The keys in front of a block, with the cursor on the opening brace. -/
def blockKeys (c : Cursor) : Except ParseError (List Token × Cursor) :=
  if c.atOpen then .ok ([], c)
  else
    let args := c.args
    if args.2.opensBlock then .ok (c.current?.toList ++ args.1, args.2.next?.getD args.2)
    else .error (args.2.fail .missingOpenBrace)

/-- The directives of a block up to its closing brace; `opening` is where the block starts. -/
def blockSegments (c : Cursor) (opening : Location) :
    Except ParseError (List Segment × Cursor) :=
  match h : c.next? with
  | none => .error ⟨opening, .unclosedBlock⟩
  | some d =>
    if d.atClose then .ok ([], d)
    else if d.atOpen then .error (d.fail .strayOpenBrace)
    else if 0 < d.segment.2.nesting then .error ⟨opening, .unclosedBlock⟩
    else
      have := length_ahead_of_next? h
      have := length_ahead_segment_le d
      match d.segment.2.blockSegments opening with
      | .error e => .error e
      | .ok (segments, e) => .ok (d.segment.1 :: segments, e)
termination_by c.ahead.length
decreasing_by omega

section blockSegments

variable {c d : Cursor} {opening : Location}

theorem blockSegments_of_none (h : c.next? = none) :
    c.blockSegments opening = .error ⟨opening, .unclosedBlock⟩ := by
  rw [blockSegments]
  split
  next => rfl
  next he => cases h.symm.trans he

theorem blockSegments_of_close (h : c.next? = some d) (hc : d.atClose = true) :
    c.blockSegments opening = .ok ([], d) := by
  rw [blockSegments]
  split
  next he => cases h.symm.trans he
  next he => cases h.symm.trans he; rw [if_pos hc]

theorem blockSegments_of_open (h : c.next? = some d) (hc : d.atClose = false)
    (ho : d.atOpen = true) : c.blockSegments opening = .error (d.fail .strayOpenBrace) := by
  rw [blockSegments]
  split
  next he => cases h.symm.trans he
  next he => cases h.symm.trans he; rw [if_neg (by simp [hc]), if_pos ho]

theorem blockSegments_of_unclosed (h : c.next? = some d) (hc : d.atClose = false)
    (ho : d.atOpen = false) (hn : 0 < d.segment.2.nesting) :
    c.blockSegments opening = .error ⟨opening, .unclosedBlock⟩ := by
  rw [blockSegments]
  split
  next he => cases h.symm.trans he
  next he =>
    cases h.symm.trans he
    rw [if_neg (by simp [hc]), if_neg (by simp [ho]), if_pos hn]

theorem blockSegments_of_segment (h : c.next? = some d) (hc : d.atClose = false)
    (ho : d.atOpen = false) (hn : d.segment.2.nesting = 0) :
    c.blockSegments opening =
      (d.segment.2.blockSegments opening).map fun rest => (d.segment.1 :: rest.1, rest.2) := by
  rw [blockSegments]
  split
  next he => cases h.symm.trans he
  next he =>
    cases h.symm.trans he
    rw [if_neg (by simp [hc]), if_neg (by simp [ho]), if_neg (by simp [hn])]
    split
    next e hr => rw [hr]; rfl
    next segments e hr => rw [hr]; rfl

end blockSegments

theorem length_ahead_of_blockKeys {c d : Cursor} {keys : List Token}
    (h : c.blockKeys = .ok (keys, d)) : d.ahead.length ≤ c.ahead.length := by
  unfold blockKeys at h
  split at h
  next => cases h; exact Nat.le_refl _
  next =>
    have hargs := length_ahead_args_le c
    simp only at h
    split at h
    next =>
      cases h
      cases hn : c.args.2.next? with
      | none => simpa using hargs
      | some e => have := length_ahead_of_next? hn; simp; omega
    next => cases h

theorem length_ahead_of_blockSegments {c d : Cursor} {opening : Location}
    {segments : List Segment} (h : c.blockSegments opening = .ok (segments, d)) :
    d.ahead.length < c.ahead.length := by
  fun_induction blockSegments c opening generalizing segments d with
  | case1 => cases h
  | case2 c e he _ => cases h; have := length_ahead_of_next? he; omega
  | case3 => cases h
  | case4 => cases h
  | case5 => cases h
  | case6 c e he _ _ _ _ _ inner last hl ih =>
    cases h
    have := ih hl
    omega

/-- The blocks from here to the end; `first` tells whether none came before. -/
def blocks (c : Cursor) (first : Bool) : Except ParseError Document :=
  match h : c.next? with
  | none => .ok []
  | some d =>
    match hk : d.blockKeys with
    | .error e => .error e
    | .ok (keys, brace) =>
      if keys.isEmpty && !first then .error (brace.fail .lateGlobalBlock)
      else
        match hs : brace.blockSegments brace.location with
        | .error e => .error e
        | .ok (segments, last) =>
          have := length_ahead_of_next? h
          have := length_ahead_of_blockKeys hk
          have := length_ahead_of_blockSegments hs
          match last.blocks false with
          | .error e => .error e
          | .ok rest => .ok (⟨keys, segments⟩ :: rest)
termination_by c.ahead.length
decreasing_by omega

section blocks

variable {c d brace last : Cursor} {first : Bool} {keys : List Token} {segments : List Segment}
  {e : ParseError}

theorem blocks_of_none (h : c.next? = none) : c.blocks first = .ok [] := by
  rw [blocks]
  split
  next => rfl
  next he => cases h.symm.trans he

theorem blocks_of_keys_error (h : c.next? = some d) (hk : d.blockKeys = .error e) :
    c.blocks first = .error e := by
  rw [blocks]
  split
  next he => cases h.symm.trans he
  next he =>
    cases h.symm.trans he
    split
    next hj => cases hk.symm.trans hj; rfl
    next hj => cases hk.symm.trans hj

theorem blocks_of_late (h : c.next? = some d) (hk : d.blockKeys = .ok (keys, brace))
    (hl : (keys.isEmpty && !first) = true) :
    c.blocks first = .error (brace.fail .lateGlobalBlock) := by
  rw [blocks]
  split
  next he => cases h.symm.trans he
  next he =>
    cases h.symm.trans he
    split
    next hj => cases hk.symm.trans hj
    next hj => cases hk.symm.trans hj; rw [if_pos hl]

theorem blocks_of_segments_error (h : c.next? = some d) (hk : d.blockKeys = .ok (keys, brace))
    (hl : (keys.isEmpty && !first) = false)
    (hs : brace.blockSegments brace.location = .error e) : c.blocks first = .error e := by
  rw [blocks]
  split
  next he => cases h.symm.trans he
  next he =>
    cases h.symm.trans he
    split
    next hj => cases hk.symm.trans hj
    next hj =>
      cases hk.symm.trans hj
      rw [if_neg (by simp [hl])]
      split
      next ht => cases hs.symm.trans ht; rfl
      next ht => cases hs.symm.trans ht

theorem blocks_of_block (h : c.next? = some d) (hk : d.blockKeys = .ok (keys, brace))
    (hl : (keys.isEmpty && !first) = false)
    (hs : brace.blockSegments brace.location = .ok (segments, last)) :
    c.blocks first = (last.blocks false).map (⟨keys, segments⟩ :: ·) := by
  rw [blocks]
  split
  next he => cases h.symm.trans he
  next he =>
    cases h.symm.trans he
    split
    next hj => cases hk.symm.trans hj
    next hj =>
      cases hk.symm.trans hj
      rw [if_neg (by simp [hl])]
      split
      next ht => cases hs.symm.trans ht
      next ht =>
        cases hs.symm.trans ht
        split
        next hr => rw [hr]; rfl
        next hr => rw [hr]; rfl

end blocks

end Cursor

def Document.ofTokens (tokens : List Token) : Except ParseError Document :=
  (Cursor.ofTokens tokens).blocks true

end NodeLayers
