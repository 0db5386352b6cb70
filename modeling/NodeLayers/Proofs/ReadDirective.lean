import NodeLayers.Proofs.Layout
import NodeLayers.Proofs.ReadOptions

namespace NodeLayers

/-- The arguments of a directive, and the cursor behind them. -/
def Segment.header (s : Segment) : List Token × Cursor :=
  ((Cursor.ofTokens s).next?.getD (.ofTokens s)).args

/-- The first argument, empty if there is none. -/
def Segment.argument (s : Segment) : String :=
  (s.header.1.head?.map Token.text).getD ""

def Segment.options (s : Segment) : List Setting :=
  s.header.2.options

namespace Cursor

variable {c d : Cursor}

theorem args_eq_cons (h : c.nextArg? = some d) :
    ∃ u, d.text = u.text ∧ c.args = (u :: d.args.1, d.args.2) := by
  obtain ⟨u, rest, _, rfl, _, _⟩ := nextArg?_eq_some h
  exact ⟨u, rfl, args_of_some h⟩

/-- Behind a directive's arguments nothing is ahead, or a block that ends with the last token. -/
inductive AtBody (c : Cursor) : Prop
  | line : c.ahead = [] → AtBody c
  | block {t passed brace first inner last} :
      c = ⟨t :: passed, brace :: first :: (inner ++ [last]), 0⟩ → t.sharesLine brace = true →
      brace.opens = true → first.closes = false → LeavesAtEnd 1 (inner ++ [last]) → AtBody c

/-- The options of a directive are read to its last token, or up to a fault. -/
theorem AtBody.ahead_readOptions {τ : Type} [OptionRecord τ] {record : τ} (h : c.AtBody)
    (hf : (readOptions record c).failure = none) : (readOptions record c).cursor.ahead = [] := by
  cases h with
  | line ha =>
    have hle := length_ahead_readOptions_le record c
    rw [ha] at hle
    exact List.eq_nil_of_length_eq_zero (Nat.le_zero.mp hle)
  | @block t passed brace first inner last hc hs hb hfirst hl =>
    subst hc
    have hmove : nextInBlock ⟨t :: passed, brace :: first :: (inner ++ [last]), 0⟩ 0 =
        (true, ⟨first :: brace :: t :: passed, inner ++ [last], 1⟩) :=
      nextInBlock_enter (Nat.le_refl 0) hs hb hfirst
    have hinside : EndsWithin ⟨first :: brace :: t :: passed, inner ++ [last], 1⟩ :=
      ⟨1, Nat.le_refl 1, hl⟩
    rcases readOptions_stop record hmove with hunknown | ⟨k, ⟨e, _, herror⟩ | ⟨s, hrest⟩⟩
    · cases hunknown.symm.trans hf
    · cases herror.symm.trans hf
    · obtain ⟨hset, hnesting⟩ := hinside.setting k
      rw [hrest] at hf ⊢
      exact NodeLayers.ahead_readOptions hset (hnesting ▸ Nat.one_pos) hf

end Cursor

theorem Segment.header_cons (t : Token) (rest : List Token) :
    Segment.header (t :: rest) = Cursor.args ⟨[t], rest, 0⟩ := rfl

theorem Segment.Spelled.atBody {s : Segment} {us : List Token} (h : s.Spelled us) :
    s.header.2.AtBody := by
  have hline : ∀ {t : Token} {args : List Token}, Header t args →
      (Segment.header (t :: args)).2.AtBody := by
    intro t args header
    have hargs : Cursor.args ⟨[t], args ++ [], 0⟩ = (args, ⟨args.reverse ++ [t], [], 0⟩) :=
      Cursor.args_of_line header.oneLine header.args_opens (Cursor.nextArg?_of_nil rfl)
    rw [List.append_nil] at hargs
    rw [Segment.header_cons, hargs]
    exact .line rfl
  cases h with
  | line header => exact hline header
  | emptyBlock header => exact hline header
  | @block t args brace first inner last header hsame hb hf hl =>
    have hsplit : t :: args ++ brace :: first :: inner ++ [last] =
        t :: (args ++ brace :: first :: (inner ++ [last])) := by simp
    obtain ⟨hargs, _⟩ : Cursor.args ⟨[t], args ++ brace :: first :: (inner ++ [last]), 0⟩ =
        (args, ⟨args.reverse ++ [t], brace :: first :: (inner ++ [last]), 0⟩) ∧ _ :=
      Cursor.args_of_block header.args_opens hsame hb
    obtain ⟨final, before, _, hrev, hshares⟩ := exists_last t args
    rw [hsplit, Segment.header_cons, hargs, hrev]
    exact .block rfl (hshares brace hsame) hb hf hl

namespace Directive

theorem readOne_of_args {c : Cursor} (h : c.args.1.length ≤ 1) :
    readOne ∅ c = readRest ((c.args.1.head?.map Token.text).getD "") c.args.2 := by
  rw [readOne]
  cases ha : c.nextArg? with
  | none =>
    rw [Cursor.args_of_none ha]
    rfl
  | some d =>
    obtain ⟨u, htext, hargs⟩ := Cursor.args_eq_cons ha
    rw [hargs] at h ⊢
    have hnone : d.nextArg? = none := by
      cases hd : d.nextArg? with
      | none => rfl
      | some e =>
        obtain ⟨v, _, he⟩ := Cursor.args_eq_cons hd
        simp [he] at h
    rw [Cursor.args_of_none hnone]
    exact congrArg (readRest · d) htext

theorem readOne_of_surplus {c : Cursor} (h : 1 < c.args.1.length) :
    ∃ e, (readOne ∅ c).1 = .error e := by
  rw [readOne]
  cases ha : c.nextArg? with
  | none =>
    rw [Cursor.args_of_none ha] at h
    cases h
  | some d =>
    obtain ⟨u, _, hargs⟩ := Cursor.args_eq_cons ha
    rw [hargs] at h
    cases hd : d.nextArg? with
    | none =>
      rw [Cursor.args_of_none hd] at h
      exact absurd h (Nat.lt_irrefl 1)
    | some e =>
      refine ⟨e.missingArgument, ?_⟩
      simp only [readRest, hd]

theorem readRest_of_body {c : Cursor} (h : c.nextArg? = none) (nodeName : String) :
    readRest nodeName c =
      ((readOptions (∅ : Settings) c).result.map (⟨orDefault nodeName, ·⟩),
        (readOptions (∅ : Settings) c).cursor) := by
  rw [readRest, h]
  cases hf : (readOptions (∅ : Settings) c).failure with
  | none => simp only [hf, Filling.result_of_none hf, Except.map]
  | some e => simp only [hf, Filling.result_of_some hf, Except.map]

theorem readOne_segment {t : Token} {rest : List Token}
    (hargs : (Segment.header (t :: rest)).1.length ≤ 1) :
    readOne ∅ ⟨[t], rest, 0⟩ =
      ((readOptions (∅ : Settings) (Segment.header (t :: rest)).2).result.map
          (⟨orDefault (Segment.argument (t :: rest)), ·⟩),
        (readOptions (∅ : Settings) (Segment.header (t :: rest)).2).cursor) := by
  have hend : (Segment.header (t :: rest)).2.nextArg? = none := Cursor.nextArg?_args _
  exact (readOne_of_args hargs).trans (readRest_of_body hend _)

/-- A segment with one argument at most is read as one directive: its node is the argument, and the
settings are those of its block. -/
theorem read_segment {s : Segment} {us : List Token} (h : s.Spelled us)
    (hargs : s.header.1.length ≤ 1) :
    (read ∅ (.ofTokens s)).1 =
      (readOptions (∅ : Settings) s.header.2).result.map (⟨orDefault s.argument, ·⟩) := by
  have hbody := h.atBody
  obtain ⟨t, rest, rfl⟩ : ∃ t rest, s = t :: rest := by
    cases h <;> exact ⟨_, _, rfl⟩
  have hnext : (Cursor.ofTokens (t :: rest)).next? = some ⟨[t], rest, 0⟩ := rfl
  have hone := readOne_segment hargs
  cases hf : (readOptions (∅ : Settings) (Segment.header (t :: rest)).2).failure with
  | some e =>
    rw [Filling.result_of_some hf] at hone ⊢
    rw [read_of_error hnext hone]
    rfl
  | none =>
    have hahead : (readOptions (∅ : Settings) (Segment.header (t :: rest)).2).cursor.next? =
        none := by
      rw [Cursor.next?, hbody.ahead_readOptions hf]
    rw [Filling.result_of_none hf] at hone ⊢
    rw [read_of_ok hnext hone, read_of_none hahead]
    rfl

theorem length_header_of_read {s : Segment} {us : List Token} {d : Directive} (h : s.Spelled us)
    (hr : (read ∅ (.ofTokens s)).1 = .ok d) : s.header.1.length ≤ 1 := by
  obtain ⟨t, rest, rfl⟩ : ∃ t rest, s = t :: rest := by
    cases h <;> exact ⟨_, _, rfl⟩
  have hnext : (Cursor.ofTokens (t :: rest)).next? = some ⟨[t], rest, 0⟩ := rfl
  refine Nat.le_of_not_lt fun hmore => ?_
  obtain ⟨e, he⟩ := readOne_of_surplus (c := ⟨[t], rest, 0⟩) hmore
  rw [read_of_error hnext (Prod.ext he rfl)] at hr
  cases hr

end Directive

/-- What a directive says it takes from these tokens: the node is its argument or the default, and
the settings are its options, set one after the other on top of nothing. -/
structure Segment.Describes (s : Segment) (d : Directive) : Prop where
  named : s.isNamed Directive.name = true
  single : s.header.1.length ≤ 1
  nodeName : d.nodeName = Directive.orDefault s.argument
  settings : d.settings = s.options.foldl Settings.set ∅
  leavesOpen : ∀ k, (∀ o ∈ s.options, o.keyword ≠ k) → d.settings.LeavesOpen k

theorem Segment.describes_of_read {s : Segment} {us : List Token} {d : Directive}
    (h : s.Spelled us) (hn : s.isNamed Directive.name = true)
    (hr : (Directive.read ∅ (.ofTokens s)).1 = .ok d) : s.Describes d := by
  have hsingle := Directive.length_header_of_read h hr
  rw [Directive.read_segment h hsingle] at hr
  cases hf : (readOptions (∅ : Settings) s.header.2).failure with
  | some e =>
    rw [Filling.result_of_some hf] at hr
    cases hr
  | none =>
    rw [Filling.result_of_none hf, record_readOptions] at hr
    cases hr
    exact ⟨hn, hsingle, rfl, rfl, fun k hk => (Settings.leavesOpen_empty k).foldl_set hk⟩

end NodeLayers
