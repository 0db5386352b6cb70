import NodeLayers.Proofs.MatchingBrace

namespace NodeLayers

/-- Behind its brace a block has a first token, and a brace that closes it. -/
structure FullBlock (rest : List Token) (first : Token) (inner : List Token) (last : Token)
    (more : List Token) : Prop where
  eq : rest = first :: (inner ++ last :: more)
  stays : first.closes = false
  balanced : Balanced inner
  closes : last.closes = true

theorem staysInside_of_not_fullBlock {first : Token} {ts : List Token}
    (h : first.closes = false)
    (hnone : ∀ inner last more, ¬FullBlock (first :: ts) first inner last more) :
    StaysInside 1 ts := by
  rcases leavesAtEnd_or_staysInside Nat.one_pos ts with ⟨inner, last, more, rfl, hl⟩ | hs
  · obtain ⟨hinner, hlast⟩ := leavesAtEnd_one_iff.mp hl
    exact absurd ⟨rfl, h, hinner, hlast⟩ (hnone inner last more)
  · exact hs

namespace Cursor

/-- On the current line, behind arguments that are no brace, a brace opens a block. -/
structure OpensBehind (c : Cursor) (t : Token) (as : List Token) (brace : Token)
    (rest : List Token) : Prop where
  current : c.current? = some t
  ahead : c.ahead = as ++ brace :: rest
  plain : ∀ a ∈ as, a.opens = false
  oneLine : OneLine (t :: (as ++ [brace]))
  opens : brace.opens = true

section run

variable {c : Cursor} {t brace first last : Token} {as used inner rest more : List Token}

theorem OpensBehind.args_eq (h : c.OpensBehind t as brace rest) :
    c.args = (as, ⟨as.reverse ++ c.passed, brace :: rest, c.nesting⟩) ∧
      c.args.2.opensBlock = true := by
  obtain ⟨passed, hc⟩ := eq_of_current? h.current
  rw [h.ahead] at hc
  obtain ⟨hargs, hopens⟩ : args ⟨t :: passed, as ++ brace :: rest, c.nesting⟩ =
      (as, ⟨as.reverse ++ t :: passed, brace :: rest, c.nesting⟩) ∧ _ :=
    args_of_block h.plain h.oneLine h.opens
  have hpassed : c.passed = t :: passed := by rw [hc]
  have hcursor : c.args = (as, ⟨as.reverse ++ c.passed, brace :: rest, c.nesting⟩) := by
    rw [hpassed, hc]
    exact hargs
  refine ⟨hcursor, ?_⟩
  rw [hcursor, hpassed]
  exact hopens

theorem opensBehind_args (h : c.current? = some t) (hopen : c.args.2.opensBlock = true) :
    ∃ brace rest, c.OpensBehind t c.args.1 brace rest := by
  obtain ⟨_, _, brace, rest, he, ho, _⟩ := eq_of_opensBlock hopen
  have hahead : c.args.2.ahead = brace :: rest := by rw [he]
  have happend := append_args c
  rw [hahead] at happend
  exact ⟨brace, rest, h, happend.symm, fun _ hm => opens_of_mem_args hm,
    oneLine_args_append c hopen hahead t h, ho⟩

/-- The tokens that the cursor passes on its way over a directive. -/
structure Run (c : Cursor) (used : List Token) : Prop where
  ahead : c.ahead = used ++ c.segment.2.ahead
  passed : c.segment.2.passed = used.reverse ++ c.passed

theorem Run.eq {us : List Token} {s : Segment} {n : Nat} (h : c.Run used)
    (hsegment : c.segment = (s, ⟨us.reverse ++ c.passed, rest, n⟩)) : used = us := by
  have hpassed := h.passed
  rw [hsegment] at hpassed
  exact List.reverse_injective (List.append_cancel_right hpassed.symm)

theorem exists_run (h : c.current? = some t) : ∃ used, c.Run used := by
  have hne := passed_ne_nil_of_current? h
  have hargs := append_args c
  have hpassed := passed_args c
  suffices hs : ∃ used, c.ahead = used ++ c.segment.2.ahead ∧
      c.segment.2.passed = used.reverse ++ c.passed by
    obtain ⟨used, hahead, hused⟩ := hs
    exact ⟨used, hahead, hused⟩
  have hs := segmented hne
  -- only with the segment and its end generalised can its five endings be told apart
  revert hs
  generalize c.segment.1 = s, c.segment.2 = d
  intro hs
  cases hs with
  | line => exact ⟨c.args.1, hargs.symm, hpassed⟩
  | @emptyBlock brace last rest _ he =>
    exact ⟨c.args.1 ++ [brace, last], by simp [← hargs, he], by simp [hpassed]⟩
  | @brokenOff brace _ he => exact ⟨c.args.1 ++ [brace], by simp [← hargs, he], by simp [hpassed]⟩
  | @block brace first inner last rest _ he =>
    exact ⟨c.args.1 ++ brace :: first :: inner ++ [last], by simp [← hargs, he], by simp [hpassed]⟩
  | @unclosed brace first inner m _ he =>
    exact ⟨c.args.1 ++ brace :: first :: inner, by simp [← hargs, he], by simp [hpassed]⟩

theorem segment_of_not_opensBehind (h : c.current? = some t)
    (hnone : ∀ as brace rest, ¬c.OpensBehind t as brace rest) :
    c.segment = (t :: c.args.1, c.args.2) := by
  cases hopen : c.args.2.opensBlock with
  | true =>
    obtain ⟨brace, rest, hbehind⟩ := opensBehind_args h hopen
    exact absurd hbehind (hnone _ brace rest)
  | false =>
    have hne : c.args.2.passed ≠ [] := by simp [passed_args, passed_ne_nil_of_current? h]
    obtain ⟨last, passed, hpassed⟩ := List.exists_cons_of_ne_nil hne
    rw [segment_of_line hpassed hopen, h]
    rfl

theorem OpensBehind.segment_nil (h : c.OpensBehind t as brace []) :
    c.segment = (t :: as, ⟨(as ++ [brace]).reverse ++ c.passed, [], c.nesting⟩) := by
  obtain ⟨hargs, hopen⟩ := h.args_eq
  rw [segment_of_brokenOff hopen (by rw [hargs]), hargs, h.current]
  simp

theorem OpensBehind.segment_empty (h : c.OpensBehind t as brace (last :: more))
    (hl : last.closes = true) :
    c.segment = (t :: as, ⟨(as ++ [brace, last]).reverse ++ c.passed, more, c.nesting⟩) := by
  obtain ⟨hargs, hopen⟩ := h.args_eq
  rw [segment_of_emptyBlock hopen (by rw [hargs]) hl, hargs, h.current]
  simp

theorem OpensBehind.segment_full (h : c.OpensBehind t as brace rest)
    (hfull : FullBlock rest first inner last more) :
    c.segment =
      (t :: (as ++ brace :: first :: inner ++ [last]),
        ⟨(as ++ brace :: first :: inner ++ [last]).reverse ++ c.passed, more, c.nesting⟩) := by
  obtain ⟨rfl, hstays, hinner, hl⟩ := hfull
  obtain ⟨hargs, hopen⟩ := h.args_eq
  rw [segment_of_block hopen (by rw [hargs]) hstays (leavesAtEnd_one_iff.mpr ⟨hinner, hl⟩), hargs,
    h.current]
  simp

/-- A block that is never closed is taken to the end of the tokens, and its last token twice. -/
theorem OpensBehind.segment_unclosed (h : c.OpensBehind t as brace (first :: inner))
    (hstays : first.closes = false)
    (hnone : ∀ body last more, ¬FullBlock (first :: inner) first body last more) :
    ∃ m final, (first :: inner).getLast? = some final ∧ c.segment =
      (t :: (as ++ brace :: first :: inner) ++ [final],
        ⟨(as ++ brace :: first :: inner).reverse ++ c.passed, [], m⟩) := by
  obtain ⟨hargs, hopen⟩ := h.args_eq
  obtain ⟨m, _, hsegment⟩ := segment_of_unclosed hopen (by rw [hargs]) hstays
    (staysInside_of_not_fullBlock hstays hnone)
  obtain ⟨final, hfinal⟩ :=
    Option.isSome_iff_exists.mp (List.getLast?_isSome.mpr (List.cons_ne_nil first inner))
  refine ⟨c.nesting + m, final, hfinal, ?_⟩
  rw [hsegment, hargs, h.current, hfinal]
  simp

/-- Only of a block that is full the braces are kept, and nothing twice. -/
theorem OpensBehind.fullBlock_of_eq (h : c.OpensBehind t as brace rest) (hrun : c.Run used)
    (hsame : c.segment.1 = t :: used) :
    ∃ first inner last more, FullBlock rest first inner last more := by
  cases rest with
  | nil =>
    rw [hrun.eq h.segment_nil, h.segment_nil] at hsame
    simp at hsame
  | cons first inner =>
    cases hf : first.closes with
    | true =>
      rw [hrun.eq (h.segment_empty hf), h.segment_empty hf] at hsame
      simp at hsame
    | false =>
      by_contra hnone
      obtain ⟨m, final, _, hsegment⟩ := h.segment_unclosed hf
        fun body last more hfull => hnone ⟨first, body, last, more, hfull⟩
      rw [hrun.eq hsegment, hsegment] at hsame
      simp at hsame

end run

/-- A directive is the run of tokens up to where the cursor ends just when the block that opens on
its line, if one does, has a first token and a brace that closes it. Of an empty block both braces
are lost, of one that the tokens end with the brace; one that is never closed gives its last token
twice. -/
theorem segment_eq_run_iff {c : Cursor} {t : Token} (h : c.current? = some t) :
    ∃ used, c.ahead = used ++ c.segment.2.ahead ∧ c.segment.2.passed = used.reverse ++ c.passed ∧
      (c.segment.1 = t :: used ↔ ∀ as brace rest, c.OpensBehind t as brace rest →
        ∃ first inner last more, FullBlock rest first inner last more) ∧
      ((∀ as brace rest, ¬c.OpensBehind t as brace rest) → used = c.args.1) ∧
      ∀ as brace rest, c.OpensBehind t as brace rest →
        (rest = [] → used = as ++ [brace] ∧ c.segment.1 = t :: as) ∧
        (∀ last more, rest = last :: more → last.closes = true →
          used = as ++ [brace, last] ∧ c.segment.1 = t :: as) ∧
        (∀ first inner last more, FullBlock rest first inner last more →
          used = as ++ brace :: first :: inner ++ [last]) ∧
        ∀ first inner, rest = first :: inner → first.closes = false →
          (∀ body last more, ¬FullBlock rest first body last more) →
          used = as ++ brace :: rest ∧
            ∃ final ∈ rest.getLast?, c.segment.1 = t :: used ++ [final] := by
  obtain ⟨used, hrun⟩ := exists_run h
  have hline : (∀ as brace rest, ¬c.OpensBehind t as brace rest) →
      c.segment = (t :: c.args.1, c.args.2) ∧ used = c.args.1 := by
    intro hnone
    have hend : c.args.2 = ⟨c.args.1.reverse ++ c.passed, c.args.2.ahead, c.args.2.nesting⟩ := by
      rw [← passed_args]
    have hsegment := segment_of_not_opensBehind h hnone
    exact ⟨hsegment, hrun.eq (hsegment.trans (congrArg (t :: c.args.1, ·) hend))⟩
  refine ⟨used, hrun.ahead, hrun.passed, ⟨fun hsame as brace rest hopen => ?_, fun hfull => ?_⟩,
    fun hnone => (hline hnone).2, fun as brace rest hopen => ⟨?_, ?_, ?_, ?_⟩⟩
  · exact hopen.fullBlock_of_eq hrun hsame
  · by_cases hopen : ∃ as brace rest, c.OpensBehind t as brace rest
    · obtain ⟨as, brace, rest, hopen⟩ := hopen
      obtain ⟨first, inner, last, more, hblock⟩ := hfull as brace rest hopen
      rw [hrun.eq (hopen.segment_full hblock), hopen.segment_full hblock]
    · obtain ⟨hsegment, hused⟩ :=
        hline fun as brace rest hbehind => hopen ⟨as, brace, rest, hbehind⟩
      rw [hsegment, hused]
  · rintro rfl
    exact ⟨hrun.eq hopen.segment_nil, by rw [hopen.segment_nil]⟩
  · rintro last more rfl hl
    exact ⟨hrun.eq (hopen.segment_empty hl), by rw [hopen.segment_empty hl]⟩
  · intro first inner last more hfull
    exact hrun.eq (hopen.segment_full hfull)
  · rintro first inner rfl hf hnone
    obtain ⟨m, final, hfinal, hsegment⟩ := hopen.segment_unclosed hf hnone
    refine ⟨hrun.eq hsegment, final, hfinal, ?_⟩
    rw [hrun.eq hsegment, hsegment]

/-- The cursor on a directive with an empty block. -/
def atEmptyBlock : Cursor where
  passed := [⟨none, 1, "a", false⟩]
  ahead := [⟨none, 1, "\x7b", false⟩, ⟨none, 2, "\x7d", false⟩]
  nesting := 0

theorem segment_atEmptyBlock :
    atEmptyBlock.current? = some ⟨none, 1, "a", false⟩ ∧
      ∃ used, atEmptyBlock.ahead = used ++ atEmptyBlock.segment.2.ahead ∧
        atEmptyBlock.segment.1 ≠ ⟨none, 1, "a", false⟩ :: used := by
  have hcurrent : atEmptyBlock.current? = some ⟨none, 1, "a", false⟩ := rfl
  obtain ⟨used, hahead, _, hiff, _⟩ := segment_eq_run_iff hcurrent
  have hopen : atEmptyBlock.OpensBehind ⟨none, 1, "a", false⟩ [] ⟨none, 1, "\x7b", false⟩
      [⟨none, 2, "\x7d", false⟩] :=
    ⟨rfl, rfl, by simp, oneLine_pair.mpr (by decide), rfl⟩
  refine ⟨hcurrent, used, hahead, fun hsame => ?_⟩
  obtain ⟨first, inner, last, more, hfull⟩ := hiff.mp hsame _ _ _ hopen
  have hlength := congrArg List.length hfull.eq
  simp at hlength

end Cursor

end NodeLayers
