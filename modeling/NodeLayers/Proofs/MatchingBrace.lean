import NodeLayers.Proofs.BraceBalance
import NodeLayers.Proofs.Layout

namespace NodeLayers

theorem Token.level?_of_pos (t : Token) {n : Nat} (h : 0 < n) :
    t.level? n = some (t.depthAfter n) := by
  unfold Token.level? Token.depthAfter
  split
  next => rw [if_neg (by omega)]
  next => split <;> rfl

/-- Counting braces and following the nesting come to the same last token. -/
theorem leavesAtEnd_concat_iff {n : Nat} {ts : List Token} {last : Token} :
    LeavesAtEnd (n + 1) (ts ++ [last]) ↔ level? n ts = some 0 ∧ last.closes = true := by
  induction ts generalizing n with
  | nil =>
    have hstep : LeavesAtEnd (n + 1) ([] ++ [last]) ↔ last.depthAfter (n + 1) = 0 :=
      and_iff_right (Nat.succ_pos n)
    rw [hstep, level?_nil, Option.some_inj]
    cases hc : last.closes with
    | true =>
      rw [Token.depthAfter_of_closes hc, Nat.add_sub_cancel]
      exact (and_iff_left rfl).symm
    | false =>
      have hpos : 0 < last.depthAfter (n + 1) := by
        unfold Token.depthAfter
        rw [hc]
        simp only [Bool.false_eq_true, ↓reduceIte]
        split <;> omega
      simp only [Bool.false_eq_true, and_false, iff_false]
      omega
  | cons t ts ih =>
    have hstep : LeavesAtEnd (n + 1) (t :: ts ++ [last]) ↔
        LeavesAtEnd (t.depthAfter (n + 1)) (ts ++ [last]) := and_iff_right (Nat.succ_pos n)
    rw [hstep, level?_cons]
    cases n with
    | succ n =>
      have hup : t.depthAfter (n + 1 + 1) = t.depthAfter (n + 1) + 1 := by
        rw [Nat.add_comm (n + 1) 1, Token.depthAfter_add t 1 (Nat.succ_pos n), Nat.add_comm]
      rw [hup, ih, Token.level?_of_pos t (Nat.succ_pos n), Option.bind_some]
    | zero =>
      cases hc : t.closes with
      | true =>
        have hdown : t.depthAfter 1 = 0 := Token.depthAfter_of_closes hc 1
        have hnone : t.level? 0 = none := by simp [Token.level?, hc]
        rw [hdown, hnone, Option.bind_none]
        constructor
        · intro h
          have hempty := h.eq_nil
          simp at hempty
        · rintro ⟨h, _⟩
          cases h
      | false =>
        cases ho : t.opens with
        | true =>
          have hlevel : t.level? 0 = some 1 := by simp [Token.level?, hc, ho]
          rw [Token.depthAfter_of_opens ho, ih, hlevel, Option.bind_some]
        | false =>
          have hlevel : t.level? 0 = some 0 := by simp [Token.level?, hc, ho]
          rw [Token.depthAfter_of_plain hc ho, ih, hlevel, Option.bind_some]

theorem leavesAtEnd_one_iff {ts : List Token} {last : Token} :
    LeavesAtEnd 1 (ts ++ [last]) ↔ Balanced ts ∧ last.closes = true := by
  rw [leavesAtEnd_concat_iff, balanced_iff_level?]

theorem StaysInside.level?_ne_zero {n : Nat} {ts : List Token} (h : StaysInside n ts) :
    level? n ts ≠ some 0 := by
  induction ts generalizing n with
  | nil =>
    have hn : 0 < n := h
    rw [level?_nil, ne_eq, Option.some_inj]
    omega
  | cons t ts ih =>
    rw [level?_cons, Token.level?_of_pos t h.1, Option.bind_some]
    exact ih h.2

theorem leavesAtEnd_of_level? {n m k : Nat} {ts us : List Token} (h : level? m ts = some k)
    (hus : LeavesAtEnd (n + 1 + k) us) : LeavesAtEnd (n + 1 + m) (ts ++ us) := by
  induction ts generalizing m with
  | nil =>
    cases h
    exact hus
  | cons t ts ih =>
    rw [level?_cons, Option.bind_eq_some_iff] at h
    obtain ⟨j, hj, hts⟩ := h
    have hdepth : t.depthAfter (n + 1 + m) = n + 1 + j := by
      unfold Token.level? at hj
      unfold Token.depthAfter
      split at hj
      next hc =>
        split at hj
        next => cases hj
        next hm => cases hj; rw [if_pos hc]; omega
      next hc =>
        rw [if_neg hc]
        split at hj
        next ho => cases hj; rw [if_pos ho]; omega
        next ho => cases hj; rw [if_neg ho]
    refine ⟨by omega, ?_⟩
    rw [hdepth]
    exact ih hts

theorem Balanced.whole {ts : List Token} (h : Balanced ts) : Whole ts := fun _ _ hus =>
  leavesAtEnd_of_level? (balanced_iff_level?.mp h) hus

section balanced

variable {first : Token} {inner ts more : List Token}

theorem Balanced.closes_first (h : Balanced (first :: inner)) : first.closes = false := by
  cases hc : first.closes with
  | false => rfl
  | true =>
    have ho : first.opens = false := Token.not_opens_of_closes hc
    have hstart := h.1 [first] (List.cons_prefix_cons.mpr ⟨rfl, List.nil_prefix⟩)
    simp [hc, ho] at hstart

theorem Balanced.tail (h : Balanced (first :: inner)) (ho : first.opens = false) :
    Balanced inner := by
  have hlevel : first.level? 0 = some 0 := by simp [Token.level?, h.closes_first, ho]
  rw [balanced_iff_level?, level?_cons, hlevel, Option.bind_some] at h
  exact balanced_iff_level?.mpr h

/-- A brace at the start of balanced tokens is closed among them, and what follows is balanced. -/
theorem Balanced.exists_close (h : Balanced (first :: inner)) (ho : first.opens = true) :
    ∃ inside close more, inner = inside ++ close :: more ∧ Balanced inside ∧
      close.closes = true ∧ Balanced more := by
  have hlevel : first.level? 0 = some 1 := by simp [Token.level?, h.closes_first, ho]
  rw [balanced_iff_level?, level?_cons, hlevel, Option.bind_some] at h
  rcases leavesAtEnd_or_staysInside Nat.one_pos inner with
    ⟨inside, close, more, rfl, hleaves⟩ | hstays
  · obtain ⟨hinside, hclose⟩ := leavesAtEnd_one_iff.mp hleaves
    refine ⟨inside, close, more, rfl, hinside, hclose, balanced_iff_level?.mpr ?_⟩
    have hzero : level? 1 (inside ++ [close]) = some 0 := hleaves.level? 0
    rwa [List.append_cons, level?_append, hzero, Option.bind_some] at h
  · exact absurd h hstays.level?_ne_zero

theorem Balanced.closes_eq_false (h : Balanced ts) (ho : ∀ t ∈ ts, t.opens = false) :
    ∀ t ∈ ts, t.closes = false := by
  have hopens : ts.countP Token.opens = 0 := List.countP_eq_zero.mpr (by simpa using ho)
  have hcloses : ts.countP Token.closes = 0 := h.2.trans hopens
  simpa using List.countP_eq_zero.mp hcloses

/-- Where no block is opened, none is closed. -/
theorem Balanced.nil_of_closes {before : List Token} (h : Balanced ts) (hts : ts = before ++ more)
    (ho : ∀ t ∈ before, t.opens = false) (hc : ∀ t ∈ more.head?, t.closes = true) : more = [] := by
  cases more with
  | nil => rfl
  | cons t more =>
    have hclose : t.closes = true := hc t rfl
    have hopens : before.countP Token.opens = 0 := List.countP_eq_zero.mpr (by simpa using ho)
    have hprefix := h.1 (before ++ [t]) ⟨more, by rw [hts]; simp⟩
    simp [List.countP_append, hopens, hclose, Token.not_opens_of_closes hclose] at hprefix

end balanced

namespace Cursor

/-- The cursor behind these tokens, in as many blocks as before. -/
def past (c : Cursor) (ts rest : List Token) : Cursor :=
  ⟨ts.reverse ++ c.passed, rest, c.nesting⟩

/-- In front of a block: its brace continues the current line, and behind its body stands the brace
that closes it, found by counting. -/
structure AtBlock (c : Cursor) (brace : Token) (body : List Token) (last : Token)
    (rest : List Token) : Prop where
  current : ∃ t, c.current? = some t ∧ t.sharesLine brace = true
  ahead : c.ahead = brace :: (body ++ last :: rest)
  opens : brace.opens = true
  balanced : Balanced body
  closes : last.closes = true

variable {c : Cursor} {brace last : Token} {body rest : List Token}

theorem AtBlock.eq (h : c.AtBlock brace body last rest) :
    ∃ t passed, c = ⟨t :: passed, brace :: (body ++ last :: rest), c.nesting⟩ ∧
      t.sharesLine brace = true := by
  obtain ⟨t, ht, hs⟩ := h.current
  obtain ⟨passed, hc⟩ := eq_of_current? ht
  rw [h.ahead] at hc
  exact ⟨t, passed, hc, hs⟩

theorem AtBlock.stops_nil (h : c.AtBlock brace [] last rest) :
    c.stops c.nesting = ([], c.past [brace, last] rest) := by
  obtain ⟨t, passed, hc, hs⟩ := h.eq
  have hmove : c.nextInBlock c.nesting = (false, c.past [brace, last] rest) := by
    rw [past, hc]
    exact nextInBlock_empty (Nat.le_refl _) hs h.opens h.closes
  exact stops_of_false hmove

/-- Whatever the first token of the body is, from there on the loop stops at the first brace that
closes more than was opened behind that token. -/
theorem AtBlock.stops_of_leavesAtEnd {first close : Token} {inner more : List Token}
    (h : c.AtBlock brace body last rest)
    (hsplit : body ++ last :: rest = first :: inner ++ close :: more)
    (hf : first.closes = false) (hl : LeavesAtEnd 1 (inner ++ [close])) :
    c.stops c.nesting =
      (first :: inner, c.past (brace :: first :: inner ++ [close]) more) := by
  obtain ⟨t, passed, hc, hs⟩ := h.eq
  rw [hsplit] at hc
  have hmove : c.nextInBlock c.nesting =
      (true, ⟨first :: brace :: t :: passed, inner ++ close :: more, c.nesting + 1⟩) := by
    rw [hc]
    exact nextInBlock_enter (Nat.le_refl _) hs h.opens hf
  have hpassed : c.passed = t :: passed := by rw [hc]
  rw [stops_of_true hmove, Cursor.stops_of_leavesAtEnd hl, past, hpassed]
  simp [current?]

/-- A directive ends where the loop over its block ends. -/
theorem segment_snd (d : Cursor) : d.segment.2 = (d.args.2.stops d.nesting).2 := by
  cases hmove : d.args.2.nextInBlock d.nesting with
  | mk more f =>
    cases more with
    | false => rw [segment_of_false hmove, stops_of_false hmove]
    | true => rw [segment_of_true hmove, stops_of_true hmove]

/-- A body that does not begin with a brace is visited to the matching brace. -/
theorem AtBlock.stops_body (h : c.AtBlock brace body last rest)
    (hfirst : ∀ t ∈ body.head?, t.opens = false) :
    c.stops c.nesting = (body, c.past (brace :: body ++ [last]) rest) := by
  cases body with
  | nil => exact h.stops_nil
  | cons first inner =>
    have hinner := h.balanced.tail (hfirst first rfl)
    exact h.stops_of_leavesAtEnd rfl h.balanced.closes_first
      (leavesAtEnd_one_iff.mpr ⟨hinner, h.closes⟩)

/-- Of a body that begins with a brace only the block that this brace opens is visited. -/
theorem AtBlock.stops_brace {first : Token} {inner : List Token}
    (h : c.AtBlock brace (first :: inner) last rest) (ho : first.opens = true) :
    ∃ inside close more, first :: inner = first :: inside ++ close :: more ∧ Balanced inside ∧
      close.closes = true ∧ Balanced more ∧
      c.stops c.nesting = (first :: inside,
        c.past (brace :: first :: inside ++ [close]) (more ++ last :: rest)) := by
  obtain ⟨inside, close, more, rfl, hinside, hclose, hmore⟩ := h.balanced.exists_close ho
  refine ⟨inside, close, more, rfl, hinside, hclose, hmore, ?_⟩
  exact h.stops_of_leavesAtEnd (by simp) h.balanced.closes_first
    (leavesAtEnd_one_iff.mpr ⟨hinside, hclose⟩)

/-- Ending early, the loop leaves the rest of the body ahead. -/
theorem AtBlock.opens_of_stops (h : c.AtBlock brace body last rest)
    (hend : (c.stops c.nesting).2 = c.past (brace :: body ++ [last]) rest) :
    ∀ t ∈ body.head?, t.opens = false := by
  cases body with
  | nil => simp
  | cons first inner =>
    intro t ht
    obtain rfl : first = t := Option.some.inj ht
    cases ho : first.opens with
    | false => rfl
    | true =>
      obtain ⟨inside, close, more, _, _, _, _, hstops⟩ := h.stops_brace ho
      rw [hstops] at hend
      have hahead := congrArg (fun d => d.ahead.length) hend
      simp only [past, List.length_append, List.length_cons] at hahead
      omega

/-- The loop over a block visits the tokens between its braces and ends on the matching one just
when the body does not begin with a brace. Otherwise it ends with the block that this brace opens.
A directive ends there too. -/
theorem stops_eq_body_iff (h : c.AtBlock brace body last rest) :
    (c.stops c.nesting = (body, c.past (brace :: body ++ [last]) rest) ↔
        ∀ t ∈ body.head?, t.opens = false) ∧
      (∀ t ∈ body.head?, t.opens = true →
        ∃ inside close more, body = t :: inside ++ close :: more ∧ Balanced inside ∧
          close.closes = true ∧ Balanced more ∧
          c.stops c.nesting = (t :: inside,
            c.past (brace :: t :: inside ++ [close]) (more ++ last :: rest))) ∧
      ∀ d : Cursor, d.args.2 = c → d.segment.2 = (c.stops c.nesting).2 ∧
        (d.segment.2 = c.past (brace :: body ++ [last]) rest ↔
          ∀ t ∈ body.head?, t.opens = false) := by
  refine ⟨⟨fun hend => ?_, h.stops_body⟩, fun first hfirst ho => ?_, fun d hd => ?_⟩
  · exact h.opens_of_stops (congrArg Prod.snd hend)
  · obtain ⟨inner, rfl⟩ := List.head?_eq_some_iff.mp hfirst
    exact h.stops_brace ho
  · have hsegment : d.segment.2 = (c.stops c.nesting).2 := by
      rw [segment_snd, ← nesting_args d, hd]
    rw [hsegment]
    exact ⟨rfl, h.opens_of_stops, fun hfirst => congrArg Prod.snd (h.stops_body hfirst)⟩

/-- The cursor on a directive whose block holds nothing but another pair of braces. -/
def atDoubleBrace : Cursor where
  passed := [⟨none, 1, "b", false⟩]
  ahead := [⟨none, 1, "\x7b", false⟩, ⟨none, 2, "\x7b", false⟩, ⟨none, 3, "\x7d", false⟩,
    ⟨none, 4, "\x7d", false⟩]
  nesting := 0

theorem stops_atDoubleBrace :
    AtBlock atDoubleBrace ⟨none, 1, "\x7b", false⟩
        [⟨none, 2, "\x7b", false⟩, ⟨none, 3, "\x7d", false⟩] ⟨none, 4, "\x7d", false⟩ [] ∧
      (atDoubleBrace.stops 0).2.ahead = [⟨none, 4, "\x7d", false⟩] := by
  have hblock : AtBlock atDoubleBrace ⟨none, 1, "\x7b", false⟩
      [⟨none, 2, "\x7b", false⟩, ⟨none, 3, "\x7d", false⟩] ⟨none, 4, "\x7d", false⟩ [] :=
    ⟨⟨_, rfl, by decide⟩, rfl, rfl, balanced_iff_level?.mpr rfl, rfl⟩
  obtain ⟨inside, close, more, hbody, hinside, hclose, hmore, hstops⟩ :=
    (stops_eq_body_iff hblock).2.1 _ rfl rfl
  have hend : (atDoubleBrace.stops 0).2.ahead = more ++ [⟨none, 4, "\x7d", false⟩] :=
    congrArg (fun x => x.2.ahead) hstops
  have hlength := congrArg List.length hbody
  have hempty : more = [] := by
    simp only [List.length_append, List.length_cons, List.length_nil] at hlength
    exact List.eq_nil_of_length_eq_zero (by omega)
  refine ⟨hblock, ?_⟩
  rw [hend, hempty]
  rfl

end Cursor

end NodeLayers
