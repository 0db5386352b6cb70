import NodeLayers.Proofs.Nesting
import Mathlib.Data.List.Forall2
import Mathlib.Data.Option.Basic

namespace NodeLayers

/-- Tokens related by `r` differ in nothing that a reader looks at: their texts, the braces among
them and their lines agree. Faults at them are reported at places related by `l`. -/
structure Alike (r : Token → Token → Prop) (l : Location → Location → Prop) : Prop where
  text : ∀ {t u}, r t u → t.text = u.text
  opens : ∀ {t u}, r t u → t.opens = u.opens
  closes : ∀ {t u}, r t u → t.closes = u.closes
  sharesLine : ∀ {t t' u u'}, r t t' → r u u' → t.sharesLine u = t'.sharesLine u'
  location : ∀ {t u}, r t u → l t.location u.location
  nowhere : l ⟨none, 0⟩ ⟨none, 0⟩

def ParseError.Like (l : Location → Location → Prop) (e e' : ParseError) : Prop :=
  l e.location e'.location ∧ e.fault = e'.fault

/-- Results related by `v`, or the same fault. -/
inductive Agree {α β : Type} (l : Location → Location → Prop) (v : α → β → Prop) :
    Except ParseError α → Except ParseError β → Prop
  | ok {a b} : v a b → Agree l v (.ok a) (.ok b)
  | error {e e'} : ParseError.Like l e e' → Agree l v (.error e) (.error e')

theorem Agree.map {α β γ δ : Type} {l : Location → Location → Prop} {v : α → β → Prop}
    {w : γ → δ → Prop} {x : Except ParseError α} {y : Except ParseError β} (h : Agree l v x y)
    {f : α → γ} {g : β → δ} (hw : ∀ a b, v a b → w (f a) (g b)) :
    Agree l w (x.map f) (y.map g) := by
  cases h with
  | ok hv => exact .ok (hw _ _ hv)
  | error he => exact .error he

theorem Agree.bind {α β γ δ : Type} {l : Location → Location → Prop} {v : α → β → Prop}
    {w : γ → δ → Prop} {x : Except ParseError α} {y : Except ParseError β} (h : Agree l v x y)
    {f : α → Except ParseError γ} {g : β → Except ParseError δ}
    (hw : ∀ a b, v a b → Agree l w (f a) (g b)) : Agree l w (x >>= f) (y >>= g) := by
  cases h with
  | ok hv => exact hw _ _ hv
  | error he => exact .error he

theorem Agree.of_ok {α β : Type} {l : Location → Location → Prop} {v : α → β → Prop}
    {x : Except ParseError α} {y : Except ParseError β} (h : Agree l v x y) {a : α}
    (hx : x = .ok a) : ∃ b, y = .ok b ∧ v a b := by
  subst hx
  cases h with
  | ok hv => exact ⟨_, rfl, hv⟩

theorem Agree.of_error {α β : Type} {l : Location → Location → Prop} {v : α → β → Prop}
    {x : Except ParseError α} {y : Except ParseError β} (h : Agree l v x y) {e : ParseError}
    (hx : x = .error e) : ∃ e', y = .error e' ∧ ParseError.Like l e e' := by
  subst hx
  cases h with
  | error he => exact ⟨_, rfl, he⟩

theorem Agree.ok_iff {α : Type} {l : Location → Location → Prop} {x y : Except ParseError α}
    (h : Agree l Eq x y) (a : α) : x = .ok a ↔ y = .ok a := by
  cases h with
  | ok hv => rw [hv]
  | error => exact iff_of_false nofun nofun

theorem forall₂_toList {α β : Type} {r : α → β → Prop} {x : Option α} {y : Option β}
    (h : Option.Rel r x y) : List.Forall₂ r x.toList y.toList := by
  cases h with
  | none => exact .nil
  | some hr => exact .cons hr .nil

namespace Cursor

variable {r : Token → Token → Prop} {l : Location → Location → Prop} {c c' d d' : Cursor}

/-- The second cursor has related tokens ahead, and around it, on top of others that the first
cursor does not have. -/
structure Behind (r : Token → Token → Prop) (c c' : Cursor) : Prop where
  ahead : List.Forall₂ r c.ahead c'.ahead
  nesting : c.nesting = c'.nesting
  passed : ∃ near below, c'.passed = near ++ below ∧ List.Forall₂ r c.passed near

/-- Besides, both cursors stand at a token or neither does. -/
structure Follows (r : Token → Token → Prop) (c c' : Cursor) : Prop extends Behind r c c' where
  floor : c.passed = [] → c'.passed = []

theorem follows_ofTokens {ts us : List Token} (h : List.Forall₂ r ts us) :
    Follows r (ofTokens ts) (ofTokens us) :=
  ⟨⟨h, rfl, [], [], rfl, .nil⟩, fun _ => rfl⟩

theorem Behind.next?_none (h : Behind r c c') (hn : c.next? = none) : c'.next? = none := by
  have hahead := h.ahead
  rw [next?_eq_none hn] at hahead
  rw [next?, List.forall₂_nil_left_iff.mp hahead]

theorem Behind.next?_some (h : Behind r c c') (hd : c.next? = some d) :
    ∃ d', c'.next? = some d' ∧ Follows r d d' := by
  obtain ⟨u, rest, hu, rfl⟩ := next?_eq_some hd
  have hahead := h.ahead
  rw [hu] at hahead
  obtain ⟨u', rest', hr, hrest, hu'⟩ := List.forall₂_cons_left_iff.mp hahead
  obtain ⟨near, below, hp, hnear⟩ := h.passed
  refine ⟨⟨u' :: c'.passed, rest', c'.nesting⟩, by rw [next?, hu'], ?_⟩
  exact ⟨⟨hrest, h.nesting, u' :: near, below, by rw [hp]; rfl, .cons hr hnear⟩,
    fun hnil => absurd hnil (List.cons_ne_nil _ _)⟩

theorem Follows.current? (h : Follows r c c') : Option.Rel r c.current? c'.current? := by
  obtain ⟨near, below, hp, hnear⟩ := h.passed
  cases hc : c.passed with
  | nil =>
    rw [Cursor.current?, Cursor.current?, hc, h.floor hc]
    exact .none
  | cons t passed =>
    rw [hc] at hnear
    obtain ⟨t', near', hr, _, rfl⟩ := List.forall₂_cons_left_iff.mp hnear
    rw [Cursor.current?, Cursor.current?, hc, hp]
    exact .some hr

/-- The token before the current one, where the cursor has passed two. -/
theorem Follows.previous? (h : Follows r c c') {t u : Token} {passed : List Token}
    (hc : c.passed = t :: u :: passed) : Option.Rel r c.previous? c'.previous? := by
  obtain ⟨near, below, hp, hnear⟩ := h.passed
  rw [hc] at hnear
  obtain ⟨t', near', _, hrest, rfl⟩ := List.forall₂_cons_left_iff.mp hnear
  obtain ⟨u', near'', hu, _, rfl⟩ := List.forall₂_cons_left_iff.mp hrest
  rw [Cursor.previous?, Cursor.previous?, hc, hp]
  exact .some hu

section same

variable (same : Alike r l)

include same

omit same in
theorem Follows.map_current? {α : Type} (h : Follows r c c') {f : Token → α}
    (hf : ∀ {t u}, r t u → f t = f u) : c.current?.map f = c'.current?.map f := by
  have hcur := h.current?
  revert hcur
  generalize c.current? = t, c'.current? = t'
  intro hcur
  cases hcur with
  | none => rfl
  | some hr => exact congrArg some (hf hr)

theorem Follows.text (h : Follows r c c') : c.text = c'.text := by
  rw [Cursor.text, Cursor.text, h.map_current? same.text]

omit same in
theorem any_eq_getD_map (x : Option Token) (p : Token → Bool) :
    x.any p = (x.map p).getD false := by
  cases x <;> rfl

theorem Follows.atOpen (h : Follows r c c') : c.atOpen = c'.atOpen := by
  rw [Cursor.atOpen, Cursor.atOpen, any_eq_getD_map, any_eq_getD_map, h.map_current? same.opens]

theorem Follows.atClose (h : Follows r c c') : c.atClose = c'.atClose := by
  rw [Cursor.atClose, Cursor.atClose, any_eq_getD_map, any_eq_getD_map,
    h.map_current? same.closes]

theorem Follows.location (h : Follows r c c') : l c.location c'.location := by
  have hcur := h.current?
  have hahead := h.ahead
  rw [Cursor.location, Cursor.location]
  revert hcur hahead
  generalize c.current? = t, c'.current? = t', c.ahead = ts, c'.ahead = ts'
  intro hcur hahead
  cases hcur with
  | some hr => exact same.location hr
  | none =>
    cases hahead with
    | nil => exact same.nowhere
    | cons hr _ => exact same.location hr

theorem Follows.fail (h : Follows r c c') (fault : Fault) :
    ParseError.Like l (c.fail fault) (c'.fail fault) :=
  ⟨h.location same, rfl⟩

theorem Follows.missingArgument (h : Follows r c c') :
    ParseError.Like l c.missingArgument c'.missingArgument := by
  rw [Cursor.missingArgument, Cursor.missingArgument, h.text same]
  exact h.fail same _

theorem Follows.invalidValue (h : Follows r c c') (reason : ValueFault) :
    ParseError.Like l (c.invalidValue reason) (c'.invalidValue reason) := by
  rw [Cursor.invalidValue, Cursor.invalidValue, h.text same]
  exact h.fail same _

theorem Follows.unknownOption (h : Follows r c c') :
    ParseError.Like l c.unknownOption c'.unknownOption := by
  rw [Cursor.unknownOption, Cursor.unknownOption, h.text same]
  exact h.fail same _

theorem Follows.nextSharesLine (h : Follows r c c') : c.nextSharesLine = c'.nextSharesLine := by
  have hcur := h.current?
  have hahead := h.ahead
  rw [Cursor.nextSharesLine, Cursor.nextSharesLine]
  revert hcur hahead
  generalize c.current? = t, c'.current? = t', c.ahead = ts, c'.ahead = ts'
  intro hcur hahead
  cases hcur with
  | none => rfl
  | some hr =>
    cases hahead with
    | nil => rfl
    | cons hu _ => exact same.sharesLine hr hu

theorem Follows.opensBlock (h : Follows r c c') : c.opensBlock = c'.opensBlock := by
  have hcur := h.current?
  have hahead := h.ahead
  rw [Cursor.opensBlock, Cursor.opensBlock]
  revert hcur hahead
  generalize c.current? = t, c'.current? = t', c.ahead = ts, c'.ahead = ts'
  intro hcur hahead
  cases hcur with
  | none => rfl
  | some hr =>
    cases hahead with
    | nil => rfl
    | cons hu _ =>
      have hopens := same.opens hu
      have hshares := same.sharesLine hr hu
      simp only [hopens, hshares]

theorem Follows.nextOnLine? (h : Follows r c c') :
    Option.Rel (Follows r) c.nextOnLine? c'.nextOnLine? := by
  rw [Cursor.nextOnLine?, Cursor.nextOnLine?, ← h.nextSharesLine same]
  split
  next =>
    cases hn : c.next? with
    | none => rw [h.next?_none hn]; exact .none
    | some d =>
      obtain ⟨d', hd', hf⟩ := h.next?_some hn
      rw [hd']
      exact .some hf
  next => exact .none

theorem Follows.nextArg? (h : Follows r c c') :
    Option.Rel (Follows r) c.nextArg? c'.nextArg? := by
  have hline := h.nextOnLine? same
  rw [Cursor.nextArg?, Cursor.nextArg?]
  revert hline
  generalize c.nextOnLine? = x, c'.nextOnLine? = y
  intro hline
  cases hline with
  | none => exact .none
  | @some d d' hf =>
    have hopen := hf.atOpen same
    rw [Option.filter_some, Option.filter_some, ← hopen]
    split
    next => exact .some hf
    next => exact .none

theorem Follows.nextArg?_none (h : Follows r c c') (hn : c.nextArg? = none) :
    c'.nextArg? = none := by
  have hrel := h.nextArg? same
  rw [hn] at hrel
  generalize c'.nextArg? = y at hrel ⊢
  cases hrel
  rfl

theorem Follows.nextArg?_some (h : Follows r c c') (hd : c.nextArg? = some d) :
    ∃ d', c'.nextArg? = some d' ∧ Follows r d d' := by
  have hrel := h.nextArg? same
  rw [hd] at hrel
  generalize c'.nextArg? = y at hrel ⊢
  cases hrel with
  | some hf => exact ⟨_, rfl, hf⟩

theorem Follows.countBrace (h : Follows r c c') : Follows r c.countBrace c'.countBrace := by
  rw [Cursor.countBrace, Cursor.countBrace, h.atClose same, h.atOpen same]
  split
  next => exact ⟨⟨h.ahead, by simp [h.nesting], h.passed⟩, h.floor⟩
  next =>
    split
    next => exact ⟨⟨h.ahead, by simp [h.nesting], h.passed⟩, h.floor⟩
    next => exact h

theorem Follows.nextInBlock (h : Follows r c c') (depth : Nat) :
    (c.nextInBlock depth).1 = (c'.nextInBlock depth).1 ∧
      Follows r (c.nextInBlock depth).2 (c'.nextInBlock depth).2 := by
  have hn := h.nesting
  rw [Cursor.nextInBlock, Cursor.nextInBlock, ← hn]
  split
  next =>
    cases hd : c.next? with
    | none => rw [h.next?_none hd]; exact ⟨rfl, h⟩
    | some d =>
      obtain ⟨d', hd', hf⟩ := h.next?_some hd
      have hcount := hf.countBrace same
      rw [hd']
      exact ⟨by simp only [hcount.nesting], hcount⟩
  next =>
    have hline := h.nextOnLine? same
    revert hline
    generalize c.nextOnLine? = x, c'.nextOnLine? = y
    intro hline
    cases hline with
    | none => exact ⟨rfl, h⟩
    | @some d d' hf =>
      simp only [← hf.atOpen same]
      split
      next =>
        cases he : d.next? with
        | none => rw [hf.next?_none he]; exact ⟨rfl, hf⟩
        | some e =>
          obtain ⟨e', he', hfirst⟩ := hf.next?_some he
          rw [he']
          simp only [← hfirst.atClose same]
          split
          next => exact ⟨rfl, hfirst⟩
          next =>
            exact ⟨rfl, ⟨hfirst.ahead, by simp [hfirst.nesting], hfirst.passed⟩, hfirst.floor⟩
      next => exact ⟨rfl, h⟩

theorem Follows.nextInBlock_eq (h : Follows r c c') {depth : Nat} {more : Bool}
    (hd : c.nextInBlock depth = (more, d)) :
    ∃ d', c'.nextInBlock depth = (more, d') ∧ Follows r d d' := by
  have hrel := h.nextInBlock same depth
  rw [hd] at hrel
  exact ⟨(c'.nextInBlock depth).2, Prod.ext hrel.1.symm rfl, hrel.2⟩

theorem Follows.args (h : Follows r c c') :
    List.Forall₂ r c.args.1 c'.args.1 ∧ Follows r c.args.2 c'.args.2 := by
  revert c'
  fun_induction Cursor.args c with
  | case1 c hn =>
    intro c' h
    rw [args_of_none (h.nextArg?_none same hn)]
    exact ⟨.nil, h⟩
  | case2 c d hd _ rest =>
    rename_i ih
    intro c' h
    obtain ⟨d', hd', hf⟩ := h.nextArg?_some same hd
    obtain ⟨hargs, hlast⟩ := ih hf
    rw [args_of_some hd']
    exact ⟨List.rel_append (forall₂_toList hf.current?) hargs, hlast⟩

theorem Follows.stops (h : Follows r c c') (depth : Nat) :
    List.Forall₂ r (c.stops depth).1 (c'.stops depth).1 ∧
      Follows r (c.stops depth).2 (c'.stops depth).2 := by
  revert c'
  fun_induction Cursor.stops c depth with
  | case1 c d hd =>
    intro c' h
    obtain ⟨d', hd', hf⟩ := h.nextInBlock_eq same hd
    rw [stops_of_false hd']
    exact ⟨.nil, hf⟩
  | case2 c d hd _ rest =>
    rename_i ih
    intro c' h
    obtain ⟨d', hd', hf⟩ := h.nextInBlock_eq same hd
    obtain ⟨hstops, hlast⟩ := ih hf
    rw [stops_of_true hd']
    exact ⟨List.rel_append (forall₂_toList hf.current?) hstops, hlast⟩

omit same in
/-- Where a block is entered, its brace and its first token have been passed. -/
theorem passed_of_nextInBlock {n : Nat} (hn : c.nesting ≤ n) (h : c.nextInBlock n = (true, d)) :
    ∃ first brace, d.passed = first :: brace :: c.passed := by
  unfold Cursor.nextInBlock at h
  rw [if_neg (Nat.not_lt.mpr hn)] at h
  split at h
  next => cases h
  next brace hb =>
    obtain ⟨t, rest, _, rfl⟩ := next?_eq_some (next?_of_nextOnLine? hb)
    split at h
    next =>
      split at h
      next => cases h
      next first hfirst =>
        obtain ⟨u, rest', _, rfl⟩ := next?_eq_some hfirst
        split at h
        next => cases h
        next => cases h; exact ⟨u, t, rfl⟩
    next => cases h

theorem Follows.segment (h : Follows r c c') :
    List.Forall₂ r c.segment.1 c'.segment.1 ∧ Follows r c.segment.2 c'.segment.2 := by
  obtain ⟨hargs, hlast⟩ := h.args same
  have hline := List.rel_append (forall₂_toList h.current?) hargs
  cases hmove : c.args.2.nextInBlock c.nesting with
  | mk more d =>
    obtain ⟨d', hmove', hf⟩ := hlast.nextInBlock_eq same hmove
    rw [h.nesting] at hmove'
    cases more with
    | false =>
      rw [segment_of_false hmove, segment_of_false hmove']
      exact ⟨hline, hf⟩
    | true =>
      obtain ⟨first, brace, hpassed⟩ :=
        passed_of_nextInBlock (Nat.le_of_eq (nesting_args c)) hmove
      obtain ⟨hstops, hend⟩ := hf.stops same c.nesting
      rw [segment_of_true hmove, segment_of_true hmove', ← h.nesting]
      refine ⟨?_, hend⟩
      exact List.rel_append (List.rel_append (List.rel_append (List.rel_append hline
        (forall₂_toList (hf.previous? hpassed))) (forall₂_toList hf.current?)) hstops)
        (forall₂_toList hend.current?)

end same

end Cursor

end NodeLayers
