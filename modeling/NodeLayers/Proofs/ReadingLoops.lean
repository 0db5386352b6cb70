import NodeLayers.Configuration
import NodeLayers.Proofs.Loops
import NodeLayers.Proofs.OptionFault

namespace NodeLayers

namespace Cursor

/-- What a directive keeps of the rest of its block, behind what it holds already. -/
def keepRest (c : Cursor) (depth : Nat) (kept : Segment) : Segment × Cursor :=
  let inside := c.stops depth
  (kept ++ inside.1 ++ inside.2.current?.toList, inside.2)

/-- What a directive keeps of a block that has been entered already, or has still to be. -/
def keepBlock (c : Cursor) (depth : Nat) (kept : Segment × Bool) : Segment × Cursor :=
  if kept.2 then c.keepRest depth kept.1
  else
    match c.nextInBlock depth with
    | (false, d) => (kept.1, d)
    | (true, d) => d.keepRest depth (kept.1 ++ d.previous?.toList ++ d.current?.toList)

theorem segment_eq_keepBlock (c : Cursor) :
    c.segment =
      c.args.2.keepBlock c.args.2.nesting (c.current?.toList ++ c.args.1, false) := rfl

/-- Where the reader of a block's directives stops. -/
def blockEnd (c : Cursor) : Cursor :=
  match h : c.next? with
  | none => c
  | some d =>
    if d.atClose then d
    else if d.atOpen then d
    else if 0 < d.segment.2.nesting then d.segment.2
    else
      have := length_ahead_of_next? h
      have := length_ahead_segment_le d
      d.segment.2.blockEnd
termination_by c.ahead.length
decreasing_by omega

section blockSegments

variable {c d : Cursor} {opening : Location}

theorem blockEnd_of_none (h : c.next? = none) : c.blockEnd = c := by
  rw [blockEnd]
  split
  next => rfl
  next he => cases h.symm.trans he

theorem blockEnd_of_some (h : c.next? = some d) :
    c.blockEnd =
      if d.atClose then d
      else if d.atOpen then d
      else if 0 < d.segment.2.nesting then d.segment.2
      else d.segment.2.blockEnd := by
  rw [blockEnd]
  split
  next he => cases h.symm.trans he
  next he => cases h.symm.trans he; rfl

theorem blockSegments_of_some (h : c.next? = some d) :
    c.blockSegments opening =
      if d.atClose then .ok ([], d)
      else if d.atOpen then .error (d.fail .strayOpenBrace)
      else if 0 < d.segment.2.nesting then .error ⟨opening, .unclosedBlock⟩
      else (d.segment.2.blockSegments opening).map fun rest => (d.segment.1 :: rest.1, rest.2) := by
  split
  next hc => exact blockSegments_of_close h hc
  next hc =>
    have hc := Bool.eq_false_iff.mpr hc
    split
    next ho => exact blockSegments_of_open h hc ho
    next ho =>
      have ho := Bool.eq_false_iff.mpr ho
      split
      next hn => exact blockSegments_of_unclosed h hc ho hn
      next hn => exact blockSegments_of_segment h hc ho (Nat.eq_zero_of_not_pos hn)

theorem length_ahead_blockEnd_le (c : Cursor) : c.blockEnd.ahead.length ≤ c.ahead.length := by
  fun_induction blockEnd c with
  | case1 => exact Nat.le_refl _
  | case2 c d hd => have := length_ahead_of_next? hd; omega
  | case3 c d hd => have := length_ahead_of_next? hd; omega
  | case4 c d hd =>
    have := length_ahead_of_next? hd
    have := length_ahead_segment_le d
    omega
  | case5 c d hd _ _ _ _ _ ih => omega

end blockSegments

end Cursor

namespace Loop

variable {β : Type}

/-- Over the arguments on the current line: the rest of a directive's line, the keys of a block, or
the tags of an option. -/
def arguments (take : Token → β) : Loop (List β) (List β × Cursor) where
  head := .nextArg
  body kept c := (.again (kept ++ (c.current?.map take).toList), c)
  ended kept c := (kept, c)

/-- Over the tokens of a block: its brace comes with the first of them, and where the block ends the
current token is added. -/
def blockTokens (depth : Nat) : Loop (Segment × Bool) (Segment × Cursor) where
  head := .nextInBlock depth
  body kept c :=
    let opened := if kept.2 then kept.1 else kept.1 ++ c.previous?.toList
    (.again (opened ++ c.current?.toList, true), c)
  ended kept c := (if kept.2 then kept.1 ++ c.current?.toList else kept.1, c)

/-- Over the options of a block. -/
def options (τ : Type) [OptionRecord τ] : Loop τ (Filling τ) where
  head := .nextInBlock 0
  body record c :=
    match OptionRecord.keyword? record c.text with
    | none => (.out ⟨record, c, some c.unknownOption⟩, c)
    | some k =>
      match c.setting k with
      | (.error e, d) => (.out ⟨record, d, some e⟩, d)
      | (.ok s, d) => (.again (OptionRecord.set record s), d)
  ended record c := ⟨record, c, none⟩

/-- Over the options and named blocks of the global option. -/
def entries : Loop App (Filling App) where
  head := .nextInBlock 0
  body a c :=
    match a.readEntry c with
    | (.error e, d) => (.out ⟨a, d, some e⟩, d)
    | (.ok b, d) => (.again b, d)
  ended a c := ⟨a, c, none⟩

/-- Over the directives in a segment, each in place of the one before. -/
def directives : Loop Directive (Except ParseError Directive × Cursor) where
  head := .next
  body given c :=
    match given.readOne c with
    | (.error e, d) => (.out (.error e, d), d)
    | (.ok read, d) => (.again read, d)
  ended given c := (.ok given, c)

/-- Over the directives of the block that opens here, up to its closing brace. -/
def segments (opening : Location) :
    Loop (List Segment) (Except ParseError (List Segment × Cursor) × Cursor) where
  head := .next
  body kept c :=
    if c.atClose then (.out (.ok (kept, c), c), c)
    else if c.atOpen then (.out (.error (c.fail .strayOpenBrace), c), c)
    else if 0 < c.segment.2.nesting then
      (.out (.error ⟨opening, .unclosedBlock⟩, c.segment.2), c.segment.2)
    else (.again (kept ++ [c.segment.1]), c.segment.2)
  ended _ c := (.error ⟨opening, .unclosedBlock⟩, c)

/-- Over the blocks of a document. -/
def blocks : Loop Document (Except ParseError Document) where
  head := .next
  body kept c :=
    match c.blockKeys with
    | .error e => (.out (.error e), c.args.2)
    | .ok (keys, brace) =>
      if keys.isEmpty && !kept.isEmpty then (.out (.error (brace.fail .lateGlobalBlock)), brace)
      else
        match brace.blockSegments brace.location with
        | .error e => (.out (.error e), brace.blockEnd)
        | .ok (segments, last) => (.again (kept ++ [⟨keys, segments⟩]), last)
  ended kept _ := .ok kept

theorem arguments_ends (take : Token → β) :
    (arguments take).Ends fun kept c => (kept ++ c.args.1.map take, c.args.2) := by
  refine Forward.ends ⟨rfl, fun _ _ => Nat.le_refl _⟩ ⟨fun h => ?ended, fun h => ?pass⟩
  case ended =>
    obtain ⟨hnone, rfl⟩ := Cursor.orStay_eq_false_iff.mp h
    simp [arguments, Cursor.args_of_none hnone]
  case pass =>
    have hsome := Cursor.orStay_eq_true_iff.mp h
    simp [arguments, Turn.result, Cursor.args_of_some hsome, Option.toList_map]

theorem blockTokens_ends (depth : Nat) :
    (blockTokens depth).Ends fun kept c => c.keepBlock depth kept := by
  refine Forward.ends ⟨rfl, fun _ _ => Nat.le_refl _⟩
    ⟨fun {kept c d} h => ?ended, fun {kept c d} h => ?pass⟩
  all_goals
    obtain ⟨kept, entered⟩ := kept
    have hmove : c.nextInBlock depth = _ := h
  case ended =>
    cases entered with
    | false => simp [blockTokens, Cursor.keepBlock, hmove]
    | true => simp [blockTokens, Cursor.keepBlock, Cursor.keepRest, Cursor.stops_of_false hmove]
  case pass =>
    cases entered with
    | false => simp [blockTokens, Turn.result, Cursor.keepBlock, hmove]
    | true =>
      simp [blockTokens, Turn.result, Cursor.keepBlock, Cursor.keepRest,
        Cursor.stops_of_true hmove]

theorem options_forward (τ : Type) [OptionRecord τ] : (options τ).Forward := by
  refine ⟨rfl, fun record c => ?_⟩
  simp only [options]
  split
  next => exact Nat.le_refl _
  next k _ =>
    have hle := Cursor.length_ahead_setting_le c k
    split <;> next hs => rwa [hs] at hle

theorem options_ends (τ : Type) [OptionRecord τ] : (options τ).Ends readOptions := by
  refine (options_forward τ).ends ⟨fun h => readOptions_of_false h, fun {record c d} h => ?_⟩
  simp only [options]
  split
  next hk => exact readOptions_of_unknown h hk
  next k hk =>
    split
    next hs => exact readOptions_of_error h hk hs
    next hs => exact readOptions_of_ok h hk hs

theorem entries_ends : entries.Ends App.readBlock := by
  refine Forward.ends ⟨rfl, fun a c => ?body⟩
    ⟨fun h => App.readBlock_of_false h, fun {a c d} h => ?pass⟩
  case body =>
    have hle := App.length_ahead_readEntry_le a c
    simp only [entries]
    split <;> next hs => rwa [hs] at hle
  case pass =>
    simp only [entries]
    split
    next hs => exact App.readBlock_of_error h hs
    next hs => exact App.readBlock_of_ok h hs

theorem directives_ends : directives.Ends Directive.read := by
  refine Forward.ends ⟨rfl, fun given c => ?body⟩ ⟨fun h => ?ended, fun {given c d} h => ?pass⟩
  case body =>
    have hle := Directive.length_ahead_readOne_le given c
    simp only [directives]
    split <;> next hs => rwa [hs] at hle
  case ended =>
    obtain ⟨hnone, rfl⟩ := Cursor.orStay_eq_false_iff.mp h
    exact Directive.read_of_none hnone
  case pass =>
    have hsome := Cursor.orStay_eq_true_iff.mp h
    simp only [directives]
    split
    next hs => exact Directive.read_of_error hsome hs
    next hs => exact Directive.read_of_ok hsome hs

theorem segments_ends (opening : Location) :
    (segments opening).Ends fun kept c =>
      ((c.blockSegments opening).map fun rest => (kept ++ rest.1, rest.2), c.blockEnd) := by
  refine Forward.ends ⟨rfl, fun kept c => ?body⟩ ⟨fun h => ?ended, fun {kept c d} h => ?pass⟩
  case body =>
    have hle := Cursor.length_ahead_segment_le c
    simp only [segments]
    split_ifs
    · exact Nat.le_refl _
    · exact Nat.le_refl _
    · exact hle
    · exact hle
  case ended =>
    obtain ⟨hnone, rfl⟩ := Cursor.orStay_eq_false_iff.mp h
    rw [Cursor.blockSegments_of_none hnone, Cursor.blockEnd_of_none hnone]
    rfl
  case pass =>
    have hsome := Cursor.orStay_eq_true_iff.mp h
    rw [Cursor.blockSegments_of_some hsome, Cursor.blockEnd_of_some hsome]
    simp only [segments]
    split_ifs
    · simp [Except.map, Turn.result]
    · rfl
    · rfl
    · rw [Turn.result]
      cases d.segment.2.blockSegments opening <;> simp [Except.map]

theorem blocks_ends : blocks.Ends fun kept c => (c.blocks kept.isEmpty).map (kept ++ ·) := by
  refine Forward.ends ⟨rfl, fun kept c => ?body⟩
    ⟨fun {kept c d} h => ?ended, fun {kept c d} h => ?pass⟩
  case body =>
    simp only [blocks]
    split
    next => exact Cursor.length_ahead_args_le c
    next keys brace hk =>
      have hbrace := Cursor.length_ahead_of_blockKeys hk
      split
      next => exact hbrace
      next =>
        split
        next => exact (Cursor.length_ahead_blockEnd_le brace).trans hbrace
        next hs => exact (Nat.le_of_lt (Cursor.length_ahead_of_blockSegments hs)).trans hbrace
  case ended =>
    obtain ⟨hnone, rfl⟩ := Cursor.orStay_eq_false_iff.mp h
    rw [Cursor.blocks_of_none hnone]
    simp [blocks, Except.map]
  case pass =>
    have hsome := Cursor.orStay_eq_true_iff.mp h
    simp only [blocks]
    split
    next hk =>
      rw [Cursor.blocks_of_keys_error hsome hk]
      rfl
    next keys brace hk =>
      split
      next hl =>
        rw [Cursor.blocks_of_late hsome hk hl]
        rfl
      next hl =>
        have hl := Bool.eq_false_iff.mpr hl
        split
        next hs =>
          rw [Cursor.blocks_of_segments_error hsome hk hl hs]
          rfl
        next segments last hs =>
          have hmore : List.isEmpty (kept ++ [⟨keys, segments⟩]) = false := by simp
          rw [Cursor.blocks_of_block hsome hk hl hs, Turn.result, hmore]
          cases last.blocks false <;> simp [Except.map]

end Loop

/-- A directive holds no more tokens than there are from its name on, and the last one once more if
its block is never closed. -/
theorem Cursor.length_segment_le {c : Cursor} {t : Token} (h : c.current? = some t) :
    c.segment.1.length ≤ c.ahead.length + 2 := by
  have hargs := congrArg List.length (append_args c)
  rw [List.length_append] at hargs
  have hs := segmented (passed_ne_nil_of_current? h)
  revert hs
  generalize c.segment.1 = s, c.segment.2 = d
  intro hs
  cases hs with
  | line => simp [h]; omega
  | emptyBlock => simp [h]; omega
  | brokenOff => simp [h]; omega
  | block _ he =>
    rw [he] at hargs
    simp [h] at hargs ⊢
    omega
  | unclosed _ he =>
    rw [he] at hargs
    simp [h, List.getLast?_cons] at hargs ⊢
    omega

/-- The options of a named block are read on a copy of its tokens, in no more passes than tokens
are left behind its name. -/
theorem Node.options_run {c : Cursor} (h : c.opensBlock = true) :
    ∃ first n e, c.enterSegment.1.next? = some first ∧ n ≤ c.ahead.length ∧
      (Loop.options Settings).Runs ∅ first n e (readOptions ∅ first) := by
  obtain ⟨t, passed, brace, rest, hc, _, _⟩ := Cursor.eq_of_opensBlock h
  have ht : c.current? = some t := by rw [hc]; rfl
  obtain ⟨block, hblock⟩ := Cursor.exists_segment_eq ht
  have hlength := Cursor.length_segment_le ht
  rw [hblock, List.length_cons] at hlength
  obtain ⟨n, e, _, hrun⟩ := (Loop.options_ends Settings).run ∅ ⟨[t], block, 0⟩
  have hruns := (hrun n e _).mpr ⟨rfl, rfl, rfl⟩
  -- the copy may be longer by a token, which the first pass makes up for
  have hpasses := hruns.passes_lt (Loop.options_forward Settings) rfl (Nat.le_refl 0)
  refine ⟨⟨[t], block, 0⟩, n, e, ?_, ?_, hruns⟩
  · rw [Cursor.enterSegment, hblock]
    rfl
  · simp only at hpasses
    omega

open Loop in
/-- The moves at the heads of the loops may step back on their way, but lead on by a token at least
where they find something. So from everywhere each loop of the reader comes to an end, in just one
run, which takes no more passes than tokens: the loops over arguments, over the tokens, the options
and the entries of a block, with the options of a named block inside, over the directives in a
segment and in a block, and over the blocks of a document. -/
theorem loops_end :
    (∀ (c : Cursor) (m : Move), m ≠ .prev →
      (∃ r, Position.Moves c.tokens c.position m r) ∧
        ∀ r, Position.Moves c.tokens c.position m r →
          c.move m = (r.1, r.2.cursor c.tokens) ∧ c.position.index ≤ r.2.index ∧
            (m.looksAhead = true → r.1 = true → c.position.index < r.2.index)) ∧
      (∀ {β : Type} (take : Token → β),
        (arguments take).Ends fun kept c => (kept ++ c.args.1.map take, c.args.2)) ∧
      (∀ c : Cursor, c.setting .tags = (.ok (.tags (c.args.1.map Token.text)), c.args.2)) ∧
      (∀ depth, (blockTokens depth).Ends fun kept c => c.keepBlock depth kept) ∧
      (∀ c : Cursor, c.segment =
        c.args.2.keepBlock c.args.2.nesting (c.current?.toList ++ c.args.1, false)) ∧
      (∀ (τ : Type) [OptionRecord τ], (options τ).Ends readOptions) ∧
      entries.Ends App.readBlock ∧
      (∀ c : Cursor, c.opensBlock = true →
        ∃ first n e, c.enterSegment.1.next? = some first ∧ n ≤ c.ahead.length ∧
          (options Settings).Runs ∅ first n e (readOptions ∅ first)) ∧
      directives.Ends Directive.read ∧
      (∀ opening, (segments opening).Ends fun kept c =>
        ((c.blockSegments opening).map fun rest => (kept ++ rest.1, rest.2), c.blockEnd)) ∧
      blocks.Ends fun kept c => (c.blocks kept.isEmpty).map (kept ++ ·) := by
  refine ⟨fun c m hm => ⟨Position.exists_moves c.position_le m, fun r hr => ?_⟩, arguments_ends,
    fun _ => rfl, blockTokens_ends, Cursor.segment_eq_keepBlock, options_ends, entries_ends,
    fun c => Node.options_run, directives_ends, segments_ends, blocks_ends⟩
  have hmove := (hr.eq c.position_le).1
  rw [c.cursor_position] at hmove
  exact ⟨hmove, hr.le c.position_le hm⟩

end NodeLayers
