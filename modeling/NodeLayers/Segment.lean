import NodeLayers.Cursor

namespace NodeLayers

/-- A directive's name, its arguments and its block with both braces. -/
abbrev Segment := List Token

namespace Cursor

/-- The arguments left on the current line, and the cursor on the last of them. -/
def args (c : Cursor) : List Token × Cursor :=
  match h : c.nextArg? with
  | none => ([], c)
  | some d =>
    have := length_ahead_of_nextArg? h
    let rest := d.args
    (d.current?.toList ++ rest.1, rest.2)
termination_by c.ahead.length

/-- The tokens that the stops inside a block stand on, and the cursor after the last attempt. -/
def stops (c : Cursor) (depth : Nat) : List Token × Cursor :=
  match h : c.nextInBlock depth with
  | (false, d) => ([], d)
  | (true, d) =>
    have := length_ahead_of_nextInBlock h
    let rest := d.stops depth
    (d.current?.toList ++ rest.1, rest.2)
termination_by c.ahead.length

def previous? (c : Cursor) : Option Token :=
  c.passed.tail.head?

/-- The directive that the current token names, and the cursor on its last token. A block that is
never closed shows by a nesting deeper than before. -/
def segment (c : Cursor) : Segment × Cursor :=
  let args := c.args
  let line := c.current?.toList ++ args.1
  match args.2.nextInBlock args.2.nesting with
  | (false, d) => (line, d)
  | (true, d) =>
    let inside := d.stops args.2.nesting
    (line ++ d.previous?.toList ++ d.current?.toList ++ inside.1 ++ inside.2.current?.toList,
      inside.2)

/-- A cursor of its own on the current directive, and the cursor behind it. -/
def enterSegment (c : Cursor) : Cursor × Cursor :=
  (ofTokens c.segment.1, c.segment.2)

theorem args_of_none {c : Cursor} (h : c.nextArg? = none) : c.args = ([], c) := by
  rw [args]
  split
  next => rfl
  next hd => cases h.symm.trans hd

theorem args_of_some {c d : Cursor} (h : c.nextArg? = some d) :
    c.args = (d.current?.toList ++ d.args.1, d.args.2) := by
  rw [args]
  split
  next hn => cases h.symm.trans hn
  next hd => cases h.symm.trans hd; rfl

theorem stops_of_false {c d : Cursor} {depth : Nat} (h : c.nextInBlock depth = (false, d)) :
    c.stops depth = ([], d) := by
  rw [stops]
  split
  next he => cases h.symm.trans he; rfl
  next he => cases h.symm.trans he

theorem stops_of_true {c d : Cursor} {depth : Nat} (h : c.nextInBlock depth = (true, d)) :
    c.stops depth = (d.current?.toList ++ (d.stops depth).1, (d.stops depth).2) := by
  rw [stops]
  split
  next he => cases h.symm.trans he
  next he => cases h.symm.trans he; rfl

@[simp] theorem tokens_args (c : Cursor) : c.args.2.tokens = c.tokens := by
  fun_induction args c with
  | case1 => rfl
  | case2 c d h hlt rest ih => exact ih.trans (tokens_of_next? (next?_of_nextArg? h))

@[simp] theorem tokens_stops (c : Cursor) (depth : Nat) : (c.stops depth).2.tokens = c.tokens := by
  fun_induction stops c depth with
  | case1 c d h => simpa [h] using tokens_nextInBlock c depth
  | case2 c d h hlt rest ih =>
    have hd := tokens_nextInBlock c depth
    rw [h] at hd
    exact ih.trans hd

@[simp] theorem tokens_segment (c : Cursor) : c.segment.2.tokens = c.tokens := by
  have hblock := tokens_nextInBlock c.args.2 c.args.2.nesting
  unfold segment
  simp only
  split
  next d hd =>
    rw [hd] at hblock
    simpa using hblock
  next d hd =>
    rw [hd] at hblock
    simpa using hblock

theorem length_ahead_args_le (c : Cursor) : c.args.2.ahead.length ≤ c.ahead.length := by
  fun_induction args c with
  | case1 => exact Nat.le_refl _
  | case2 c d h hlt rest ih =>
    have := length_ahead_of_nextArg? h
    simp only [rest]
    omega

theorem length_ahead_stops_le (c : Cursor) (depth : Nat) :
    (c.stops depth).2.ahead.length ≤ c.ahead.length := by
  fun_induction stops c depth with
  | case1 c d h =>
    have := length_ahead_nextInBlock_le c depth
    simpa [h] using this
  | case2 c d h hlt rest ih =>
    have := length_ahead_of_nextInBlock h
    simp only [rest]
    omega

theorem length_ahead_segment_le (c : Cursor) : c.segment.2.ahead.length ≤ c.ahead.length := by
  have hargs := length_ahead_args_le c
  have hblock := length_ahead_nextInBlock_le c.args.2 c.args.2.nesting
  unfold segment
  simp only
  split
  next d hd =>
    rw [hd] at hblock
    simp only at hblock ⊢
    omega
  next d hd =>
    have hstops := length_ahead_stops_le d c.args.2.nesting
    rw [hd] at hblock
    simp only at hblock ⊢
    omega

end Cursor

end NodeLayers
