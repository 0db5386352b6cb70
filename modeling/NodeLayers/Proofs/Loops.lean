import NodeLayers.Proofs.Positions

namespace NodeLayers

/-- Whether a move looks for a token further on. -/
def Move.looksAhead : Move → Bool
  | .next | .nextArg | .nextInBlock _ => true
  | .prev | .segment => false

namespace Cursor

variable {c d : Cursor} {o : Option Cursor} {m : Move}

theorem orStay_eq_true_iff : c.orStay o = (true, d) ↔ o = some d := by
  cases o <;> simp [orStay]

theorem orStay_eq_false_iff : c.orStay o = (false, d) ↔ o = none ∧ c = d := by
  cases o <;> simp [orStay]

theorem length_ahead_of_move (hm : m.looksAhead = true) (h : c.move m = (true, d)) :
    d.ahead.length < c.ahead.length := by
  cases m with
  | next =>
    have := length_ahead_of_next? (orStay_eq_true_iff.mp h)
    omega
  | nextArg =>
    have := length_ahead_of_nextArg? (orStay_eq_true_iff.mp h)
    omega
  | nextInBlock depth => exact length_ahead_of_nextInBlock h
  | prev => cases hm
  | segment => cases hm

theorem length_ahead_orStay_le (h : ∀ d ∈ o, d.ahead.length + 1 = c.ahead.length) :
    (c.orStay o).2.ahead.length ≤ c.ahead.length := by
  cases o with
  | none => exact Nat.le_refl _
  | some d =>
    have := h d rfl
    simp only [orStay, Option.getD_some]
    omega

theorem length_ahead_move_le (hm : m ≠ .prev) : (c.move m).2.ahead.length ≤ c.ahead.length := by
  cases m with
  | next => exact length_ahead_orStay_le fun d => length_ahead_of_next?
  | nextArg => exact length_ahead_orStay_le fun d => length_ahead_of_nextArg?
  | nextInBlock depth => exact length_ahead_nextInBlock_le c depth
  | prev => exact absurd rfl hm
  | segment => exact length_ahead_segment_le c

theorem length_ahead_of_enter {depth : Nat} (h : c.nextInBlock depth = (true, d))
    (hc : c.nesting ≤ depth) : d.ahead.length + 2 = c.ahead.length := by
  rw [nextInBlock, if_neg (Nat.not_lt.mpr hc)] at h
  split at h
  next => cases h
  next brace hb =>
    have hbrace := length_ahead_of_next? (next?_of_nextOnLine? hb)
    split at h
    next =>
      split at h
      next => cases h
      next first hf =>
        have hfirst := length_ahead_of_next? hf
        split at h
        next => cases h
        next =>
          cases h
          simp only
          omega
    next => cases h

end Cursor

def Cursor.position (c : Cursor) : Position :=
  ⟨c.passed.length, c.nesting⟩

theorem Cursor.cursor_position (c : Cursor) : c.position.cursor c.tokens = c := by
  have hlength : c.passed.length = c.passed.reverse.length := List.length_reverse.symm
  rw [position, Position.cursor, tokens, hlength, List.take_left, List.drop_left,
    List.reverse_reverse]

theorem Cursor.position_le (c : Cursor) : c.position.index ≤ c.tokens.length := by
  simp [position, tokens]

/-- A move leads on, except for a step back; where it looks ahead and finds something, it leads on
by a token at least, though on its way it may step back. -/
theorem Position.Moves.le {ts : List Token} {p : Position} {m : Move} {r : Bool × Position}
    (h : Moves ts p m r) (hp : p.index ≤ ts.length) (hm : m ≠ .prev) :
    p.index ≤ r.2.index ∧ (m.looksAhead = true → r.1 = true → p.index < r.2.index) := by
  obtain ⟨hmove, hr⟩ := h.eq hp
  have hahead : ∀ q : Position, (q.cursor ts).ahead.length = ts.length - q.index :=
    fun q => List.length_drop
  constructor
  · have hle := Cursor.length_ahead_move_le (c := p.cursor ts) hm
    rw [hmove, hahead, hahead] at hle
    omega
  · intro hlooks hfound
    rw [hfound] at hmove
    have hlt := Cursor.length_ahead_of_move hlooks hmove
    rw [hahead, hahead] at hlt
    omega

/-- What the body of a loop leads to: its head again, or out of the loop. -/
inductive Turn (α ρ : Type)
  | again (kept : α)
  | out (result : ρ)

/-- The result behind a pass, with the function in place of the loop. -/
def Turn.result {α ρ : Type} (f : α → Cursor → ρ) : Turn α ρ × Cursor → ρ
  | (.again kept, c) => f kept c
  | (.out result, _) => result

/-- A loop over a cursor, with what it keeps from pass to pass. At its head stands a move: when that
finds something, a pass goes through the body from there; when it finds nothing, the loop is
over. -/
structure Loop (α ρ : Type) where
  head : Move
  body : α → Cursor → Turn α ρ × Cursor
  ended : α → Cursor → ρ

namespace Loop

variable {α ρ : Type}

/-- A run from the head to the end, with no bound set to it: the passes it takes, where it ends, and
what it gives. -/
inductive Runs (l : Loop α ρ) : α → Cursor → Nat → Cursor → ρ → Prop
  | ended {a c d} : c.move l.head = (false, d) → Runs l a c 0 d (l.ended a d)
  | out {a c d e r} : c.move l.head = (true, d) → l.body a d = (.out r, e) → Runs l a c 1 e r
  | again {a b c d e n f r} : c.move l.head = (true, d) → l.body a d = (.again b, e) →
      Runs l b e n f r → Runs l a c (n + 1) f r

/-- The head looks ahead, and the body does not lead back. -/
structure Forward (l : Loop α ρ) : Prop where
  looksAhead : l.head.looksAhead = true
  body_le : ∀ a c, (l.body a c).2.ahead.length ≤ c.ahead.length

/-- The function gives what the loop gives, one pass unfolded. -/
structure Unfolds (l : Loop α ρ) (f : α → Cursor → ρ) : Prop where
  ended : ∀ {a : α} {c d : Cursor}, c.move l.head = (false, d) → f a c = l.ended a d
  pass : ∀ {a : α} {c d : Cursor}, c.move l.head = (true, d) → f a c = Turn.result f (l.body a d)

/-- Each pass takes a token at least. From everywhere there is just one run to the end, with no more
passes than it takes tokens, and the function gives its result. -/
structure Ends (l : Loop α ρ) (f : α → Cursor → ρ) : Prop where
  pass_lt : ∀ (a : α) (c d : Cursor), c.move l.head = (true, d) →
    (l.body a d).2.ahead.length < c.ahead.length
  run : ∀ a c, ∃ n e, n + e.ahead.length ≤ c.ahead.length ∧
    ∀ m d r, l.Runs a c m d r ↔ m = n ∧ d = e ∧ r = f a c

variable {l : Loop α ρ} {f : α → Cursor → ρ} {a : α} {c d e : Cursor} {m n : Nat} {r s : ρ}

theorem Forward.pass_lt (h : l.Forward) (a : α) (hd : c.move l.head = (true, d)) :
    (l.body a d).2.ahead.length < c.ahead.length :=
  Nat.lt_of_le_of_lt (h.body_le a d) (Cursor.length_ahead_of_move h.looksAhead hd)

theorem Forward.exists_runs (h : l.Forward) (a : α) (c : Cursor) : ∃ n e r, l.Runs a c n e r := by
  induction hn : c.ahead.length using Nat.strong_induction_on generalizing a c with
  | _ k ih =>
    subst hn
    rcases hmove : c.move l.head with ⟨_ | _, d⟩
    · exact ⟨0, d, _, .ended hmove⟩
    · have hlt := h.pass_lt a hmove
      rcases hbody : l.body a d with ⟨b | r, e⟩
      · rw [hbody] at hlt
        obtain ⟨n, f, r, hrun⟩ := ih _ hlt b e rfl
        exact ⟨n + 1, f, r, .again hmove hbody hrun⟩
      · exact ⟨1, e, r, .out hmove hbody⟩

theorem Runs.passes_le (h : l.Runs a c n e r) (hl : l.Forward) :
    n + e.ahead.length ≤ c.ahead.length := by
  induction h with
  | @ended a c d hmove =>
    have hhead : l.head ≠ .prev := fun hprev => by
      have hlooks := hl.looksAhead
      rw [hprev] at hlooks
      cases hlooks
    have hle := Cursor.length_ahead_move_le (c := c) hhead
    rw [hmove] at hle
    simpa using hle
  | @out a c d e r hmove hbody =>
    have hlt := hl.pass_lt a hmove
    rw [hbody] at hlt
    simp only at hlt
    omega
  | @again a b c d e n f r hmove hbody _ ih =>
    have hlt := hl.pass_lt a hmove
    rw [hbody] at hlt
    simp only at hlt
    omega

/-- The first pass through a block that has still to be opened takes its brace as well. -/
theorem Runs.passes_lt {depth : Nat} (h : l.Runs a c n e r) (hl : l.Forward)
    (hhead : l.head = .nextInBlock depth) (hc : c.nesting ≤ depth) :
    n = 0 ∨ n < c.ahead.length := by
  cases h with
  | ended => exact Or.inl rfl
  | out hmove =>
    rw [hhead] at hmove
    have henter := Cursor.length_ahead_of_enter hmove hc
    omega
  | @again _ b _ d e n _ _ hmove hbody hrun =>
    have hrest := hrun.passes_le hl
    have hle := hl.body_le a d
    rw [hbody] at hle
    rw [hhead] at hmove
    have henter := Cursor.length_ahead_of_enter hmove hc
    simp only at hle
    omega

theorem Runs.eq (h : l.Runs a c n e r) (hf : l.Unfolds f) : r = f a c := by
  induction h with
  | ended hmove => rw [hf.ended hmove]
  | out hmove hbody => rw [hf.pass hmove, hbody, Turn.result]
  | again hmove hbody _ ih => rw [hf.pass hmove, hbody, Turn.result, ih]

theorem Runs.unique (h : l.Runs a c n e r) (h' : l.Runs a c m d s) : m = n ∧ d = e ∧ s = r := by
  induction h generalizing m with
  | ended hmove =>
    cases h' with
    | ended hmove' =>
      obtain ⟨_, rfl⟩ := Prod.mk.inj (hmove.symm.trans hmove')
      exact ⟨rfl, rfl, rfl⟩
    | out hmove' => cases hmove.symm.trans hmove'
    | again hmove' => cases hmove.symm.trans hmove'
  | out hmove hbody =>
    cases h' with
    | ended hmove' => cases hmove.symm.trans hmove'
    | out hmove' hbody' =>
      cases hmove.symm.trans hmove'
      cases hbody.symm.trans hbody'
      exact ⟨rfl, rfl, rfl⟩
    | again hmove' hbody' =>
      cases hmove.symm.trans hmove'
      cases hbody.symm.trans hbody'
  | again hmove hbody _ ih =>
    cases h' with
    | ended hmove' => cases hmove.symm.trans hmove'
    | out hmove' hbody' =>
      cases hmove.symm.trans hmove'
      cases hbody.symm.trans hbody'
    | again hmove' hbody' hrun' =>
      cases hmove.symm.trans hmove'
      cases hbody.symm.trans hbody'
      obtain ⟨rfl, rfl, rfl⟩ := ih hrun'
      exact ⟨rfl, rfl, rfl⟩

theorem Forward.ends (hl : l.Forward) (hf : l.Unfolds f) : l.Ends f where
  pass_lt a _ _ hd := hl.pass_lt a hd
  run a c := by
    obtain ⟨n, e, r, hrun⟩ := hl.exists_runs a c
    obtain rfl := hrun.eq hf
    refine ⟨n, e, hrun.passes_le hl, fun m d s => ⟨hrun.unique, ?_⟩⟩
    rintro ⟨rfl, rfl, rfl⟩
    exact hrun

end Loop

end NodeLayers
