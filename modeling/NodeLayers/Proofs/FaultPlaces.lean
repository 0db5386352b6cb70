import NodeLayers.Proofs.Arguments
import NodeLayers.Proofs.Layout
import NodeLayers.Proofs.ReadOptions

namespace NodeLayers

/-- The fault is found at one of these tokens. -/
def ParseError.FoundIn (e : ParseError) (body : List Token) : Prop :=
  ∃ t ∈ body, e.location = t.location

namespace Cursor

variable {body : List Token} {last : Token} {c d : Cursor}

theorem foundIn_fail {t : Token} (ht : t ∈ body) (hc : c.current? = some t) (fault : Fault) :
    (c.fail fault).FoundIn body := by
  refine ⟨t, ht, ?_⟩
  rw [fail, location, hc]
  rfl

/-- The cursor stands in the body of a block and in no block within; ahead are more tokens of the
body and the closing brace. -/
structure Within (body : List Token) (last : Token) (c : Cursor) : Prop where
  current : ∃ t ∈ body, c.current? = some t
  ahead : ∃ rest, (∀ u ∈ rest, u ∈ body) ∧ c.ahead = rest ++ [last]
  nesting : c.nesting = 1

theorem Within.fail (h : c.Within body last) (fault : Fault) : (c.fail fault).FoundIn body := by
  obtain ⟨t, ht, hc⟩ := h.current
  exact foundIn_fail ht hc fault

/-- The closing brace is no argument: it stands on a line of its own. -/
theorem Within.nextArg? (apart : ∀ t ∈ body, t.sharesLine last = false) (h : c.Within body last)
    (hd : c.nextArg? = some d) : d.Within body last := by
  obtain ⟨u, ahead, hu, rfl, _, hs⟩ := nextArg?_eq_some hd
  obtain ⟨t, ht, hc⟩ := h.current
  obtain ⟨rest, hrest, hahead⟩ := h.ahead
  rw [hu] at hahead
  cases rest with
  | nil =>
    obtain ⟨rfl, _⟩ := List.cons.inj hahead
    have hline := hs t hc
    rw [apart t ht] at hline
    cases hline
  | cons v rest =>
    obtain ⟨rfl, rfl⟩ := List.cons.inj hahead
    exact ⟨⟨u, hrest u List.mem_cons_self, rfl⟩,
      ⟨rest, fun w hw => hrest w (List.mem_cons_of_mem u hw), rfl⟩, h.nesting⟩

/-- An option is read inside the body, and what is wrong with it is found there. -/
theorem keepsArguments_within (apart : ∀ t ∈ body, t.sharesLine last = false) :
    KeepsArguments (Within body last) (·.FoundIn body) where
  nextArg? h hd := h.nextArg? apart hd
  missing h := h.fail _
  invalid h _ := h.fail _

/-- The next stop in a block is a token of its body: the closing brace ends the block. -/
theorem Within.nextInBlock (hl : last.closes = true) (h : c.Within body last)
    (hd : c.nextInBlock 0 = (true, d)) :
    ∃ t ∈ body, d.current? = some t ∧ (t.opens = false → d.Within body last) := by
  obtain ⟨rest, hrest, hahead⟩ := h.ahead
  obtain ⟨passed, ahead, n⟩ := c
  obtain rfl : ahead = rest ++ [last] := hahead
  obtain rfl : n = 1 := h.nesting
  cases rest with
  | nil =>
    have hend : Cursor.nextInBlock ⟨passed, [last], 1⟩ 0 = (false, ⟨last :: passed, [], 0⟩) :=
      nextInBlock_close hl
    cases hend.symm.trans hd
  | cons u rest =>
    have hu : u ∈ body := hrest u List.mem_cons_self
    rw [List.cons_append, nextInBlock_inside Nat.one_pos] at hd
    obtain ⟨hmore, rfl⟩ := Prod.mk.inj hd
    refine ⟨u, hu, rfl, fun ho => ⟨⟨u, hu, rfl⟩, ⟨rest, ?_, rfl⟩, ?_⟩⟩
    · exact fun w hw => hrest w (List.mem_cons_of_mem u hw)
    · have hle := Token.depthAfter_le_of_not_opens ho 1
      have hpos := of_decide_eq_true hmore
      exact Nat.le_antisymm hle hpos

theorem Within.of_keyword {τ : Type} [OptionRecord τ] {record : τ} {k : Keyword}
    (hl : last.closes = true) (h : c.Within body last) (hd : c.nextInBlock 0 = (true, d))
    (hk : OptionRecord.keyword? record d.text = some k) : d.Within body last := by
  obtain ⟨t, ht, hc, hwithin⟩ := h.nextInBlock hl hd
  have htext : d.text = t.text := by rw [text, hc]; rfl
  cases ho : t.opens with
  | false => exact hwithin ho
  | true =>
    rw [htext, keyword?_brace record ho] at hk
    cases hk

/-- From inside a block's body on, what is wrong with its options is found in the body. -/
theorem Within.readOptions {τ : Type} [OptionRecord τ] {record : τ} {e : ParseError}
    (apart : ∀ t ∈ body, t.sharesLine last = false) (hl : last.closes = true)
    (h : c.Within body last) (he : (NodeLayers.readOptions record c).failure = some e) :
    e.FoundIn body := by
  fun_induction NodeLayers.readOptions record c with
  | case1 => cases he
  | case2 record c d hd hk =>
    obtain ⟨t, ht, hc, _⟩ := h.nextInBlock hl hd
    obtain rfl := Option.some.inj he
    exact foundIn_fail ht hc _
  | case3 record c d hd k hk e' f hs =>
    have hread := (keepsArguments_within apart).setting (h.of_keyword hl hd hk) k
    rw [hs] at hread
    obtain rfl := Option.some.inj he
    exact hread.error _ rfl
  | case4 record c d hd k hk s f hs _ ih =>
    have hread := (keepsArguments_within apart).setting (h.of_keyword hl hd hk) k
    rw [hs] at hread
    exact ih hread.cursor he

/-- What is wrong with the options of a block is found in its body. -/
theorem foundIn_readOptions {τ : Type} [OptionRecord τ] {record : τ} {e : ParseError}
    {name brace : Token} {passed : List Token} (apart : ∀ t ∈ body, t.sharesLine last = false)
    (hl : last.closes = true) (hs : name.sharesLine brace = true) (hb : brace.opens = true)
    (hfirst : ∀ t ∈ body.head?, t.closes = false)
    (he : (NodeLayers.readOptions record ⟨name :: passed, keptBlock brace body last, 0⟩).failure =
      some e) : e.FoundIn body := by
  cases body with
  | nil =>
    have hend : Cursor.nextInBlock ⟨name :: passed, [], 0⟩ 0 = (false, ⟨name :: passed, [], 0⟩) :=
      nextInBlock_none (Nat.le_refl 0) (by simp)
    rw [keptBlock, if_pos rfl, readOptions_of_false hend] at he
    cases he
  | cons first inner =>
    have hmove : Cursor.nextInBlock ⟨name :: passed, brace :: first :: (inner ++ [last]), 0⟩ 0 =
        (true, ⟨first :: brace :: name :: passed, inner ++ [last], 1⟩) :=
      nextInBlock_enter (Nat.le_refl 0) hs hb (hfirst first rfl)
    have hwithin : Within (first :: inner) last
        ⟨first :: brace :: name :: passed, inner ++ [last], 1⟩ :=
      ⟨⟨first, List.mem_cons_self, rfl⟩,
        ⟨inner, fun u hu => List.mem_cons_of_mem first hu, rfl⟩, rfl⟩
    have hkept : keptBlock brace (first :: inner) last = brace :: first :: (inner ++ [last]) := rfl
    have hread := (keepsArguments_within apart).setting hwithin
    rw [hkept] at he
    rcases readOptions_stop record hmove with hunknown | ⟨k, ⟨e', hplace, herror⟩ | ⟨s, hrest⟩⟩
    · cases hunknown.symm.trans he
      exact hwithin.fail _
    · cases herror.symm.trans he
      exact (hread k).error e hplace
    · rw [hrest] at he
      exact (hread k).cursor.readOptions apart hl he

end Cursor

end NodeLayers
