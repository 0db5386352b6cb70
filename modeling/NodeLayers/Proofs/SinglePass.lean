import NodeLayers.Proofs.ReadDirective
import NodeLayers.Proofs.ReadingLoops

namespace NodeLayers

theorem Cursor.tokens_setting (c : Cursor) (k : Keyword) : (c.setting k).2.tokens = c.tokens := by
  have keeps : KeepsArguments (fun d => d.tokens = c.tokens) fun _ => True :=
    { nextArg? := fun h hd => (tokens_of_next? (next?_of_nextArg? hd)).trans h
      missing := fun _ => trivial
      invalid := fun _ _ => trivial }
  exact (keeps.setting rfl k).cursor

theorem tokens_readOptions {τ : Type} [OptionRecord τ] (record : τ) (c : Cursor) :
    (readOptions record c).cursor.tokens = c.tokens := by
  have hmove := Cursor.tokens_nextInBlock c 0
  fun_induction readOptions record c with
  | case1 record c d h =>
    rwa [h] at hmove
  | case2 record c d h =>
    rwa [h] at hmove
  | case3 record c d h k hk e f hs =>
    have hset := Cursor.tokens_setting d k
    rw [h] at hmove
    rw [hs] at hset
    exact hset.trans hmove
  | case4 record c d h k hk s f hs _ ih =>
    have hset := Cursor.tokens_setting d k
    rw [h] at hmove
    rw [hs] at hset
    exact (ih (Cursor.tokens_nextInBlock f 0)).trans (hset.trans hmove)

namespace Directive

/-- What a pass over a segment gives: the node is the argument on the segment's line, or the
default, and the settings are those of its block. -/
structure OnePass (s : Segment) (d : Directive) (e : Cursor) : Prop where
  single : s.header.1.length ≤ 1
  nodeName : d.nodeName = orDefault s.argument
  readable : (readOptions (∅ : Settings) s.header.2).failure = none
  settings : d.settings = (readOptions (∅ : Settings) s.header.2).record
  cursor : e = (readOptions (∅ : Settings) s.header.2).cursor

variable {t : Token} {rest us : List Token} {d : Directive} {c first e : Cursor}

theorem onePass_of_readOne (h : readOne ∅ ⟨[t], rest, 0⟩ = (.ok d, e)) :
    OnePass (t :: rest) d e := by
  have hsingle : (Segment.header (t :: rest)).1.length ≤ 1 := by
    refine Nat.le_of_not_lt fun hmore => ?_
    obtain ⟨error, herror⟩ := readOne_of_surplus (c := ⟨[t], rest, 0⟩) hmore
    rw [h] at herror
    cases herror
  rw [readOne_segment hsingle] at h
  obtain ⟨hd, he⟩ := Prod.mk.inj h
  cases hf : (readOptions (∅ : Settings) (Segment.header (t :: rest)).2).failure with
  | some error =>
    rw [Filling.result_of_some hf] at hd
    cases hd
  | none =>
    rw [Filling.result_of_none hf] at hd
    cases hd
    exact ⟨hsingle, rfl, hf, rfl, he.symm⟩

/-- A pass that succeeds leaves no token of the segment for another. -/
theorem OnePass.passed (h : OnePass (t :: rest) d e) (hs : Segment.Spelled (t :: rest) us) :
    e.ahead = [] ∧ e.passed = (t :: rest).reverse := by
  have hahead : e.ahead = [] := by
    -- a closing brace taken as an argument leaves the block open up to the last token
    rw [h.cursor]
    exact hs.atBody.ahead_readOptions h.readable
  have htokens : e.tokens = t :: rest := by
    rw [h.cursor, tokens_readOptions, Segment.header_cons, Cursor.tokens_args]
    rfl
  refine ⟨hahead, ?_⟩
  rw [← htokens, Cursor.tokens, hahead, List.append_nil, List.reverse_reverse]

/-- Where a pass that succeeds leaves no token, it is the only one. -/
theorem runs_once (given : Directive) (hfirst : c.next? = some first)
    (hend : ∀ d e, readOne given first = (.ok d, e) → e.ahead = []) :
    Loop.directives.Runs given c 1 (readOne given first).2 (readOne given first) := by
  have hmove : c.move Loop.directives.head = (true, first) := Cursor.orStay_eq_true_iff.mpr hfirst
  rcases hone : readOne given first with ⟨error | d, e⟩
  · have hbody : Loop.directives.body given first = (.out (.error error, e), e) := by
      simp only [Loop.directives, hone]
    exact .out hmove hbody
  · have hbody : Loop.directives.body given first = (.again d, e) := by
      simp only [Loop.directives, hone]
    have hnone : e.next? = none := by rw [Cursor.next?, hend d e hone]
    have hlast : e.move Loop.directives.head = (false, e) :=
      Cursor.orStay_eq_false_iff.mpr ⟨hnone, rfl⟩
    exact .again hmove hbody (.ended hlast)

end Directive

/-- Every directive of an accepted document is read in just one pass, whatever the layout and the
braces of its tokens. Where it can be read, the pass takes all of them, and gives both the node and
the settings. -/
theorem Document.directive_read_once {ts : List Token} {d : Document} {b : Block} {s : Segment}
    (h : Document.ofTokens ts = .ok d) (hb : b ∈ d) (hs : s ∈ b.named Directive.name) :
    (∀ n e r, Loop.directives.Runs ∅ (.ofTokens s) n e r ↔
        n = 1 ∧ e = (Directive.read ∅ (.ofTokens s)).2 ∧ r = Directive.read ∅ (.ofTokens s)) ∧
      ∀ directive e, Directive.read ∅ (.ofTokens s) = (.ok directive, e) →
        e.ahead = [] ∧ e.passed = s.reverse ∧ Directive.OnePass s directive e := by
  obtain ⟨us, hspelled⟩ := (spelled_ofTokens h).segment hb (List.mem_of_mem_filter hs)
  obtain ⟨t, rest, rfl⟩ : ∃ t rest, s = t :: rest := by
    cases hspelled <;> exact ⟨_, _, rfl⟩
  have hfirst : (Cursor.ofTokens (t :: rest)).next? = some ⟨[t], rest, 0⟩ := rfl
  have hone := Directive.runs_once ∅ hfirst fun d e hd =>
    ((Directive.onePass_of_readOne hd).passed hspelled).1
  obtain ⟨n, e, _, hrun⟩ := Loop.directives_ends.run ∅ (Cursor.ofTokens (t :: rest))
  obtain ⟨rfl, rfl, hread⟩ := (hrun _ _ _).mp hone
  rw [← hread] at hrun ⊢
  refine ⟨hrun, fun directive e hd => ?_⟩
  have hpass := Directive.onePass_of_readOne hd
  obtain ⟨hahead, hpassed⟩ := hpass.passed hspelled
  exact ⟨hahead, hpassed, hpass⟩

/-- A site whose directive gives tags, the closing brace among them. -/
def bracedTags : List Token :=
  [⟨none, 1, "a", false⟩, ⟨none, 1, "\x7b", false⟩, ⟨none, 2, "tailscale", false⟩,
    ⟨none, 2, "edge", false⟩, ⟨none, 2, "\x7b", false⟩, ⟨none, 2, "tags", false⟩,
    ⟨none, 2, "x", false⟩, ⟨none, 2, "\x7d", false⟩, ⟨none, 3, "\x7d", false⟩]

def bracedTagsSegment : Segment :=
  [⟨none, 2, "tailscale", false⟩, ⟨none, 2, "edge", false⟩, ⟨none, 2, "\x7b", false⟩,
    ⟨none, 2, "tags", false⟩, ⟨none, 2, "x", false⟩, ⟨none, 2, "\x7d", false⟩]

def bracedTagsBlock : Block :=
  ⟨[⟨none, 1, "a", false⟩], [bracedTagsSegment]⟩

theorem Document.bracedTags_read_once :
    Document.ofTokens bracedTags = .ok [bracedTagsBlock] ∧
      bracedTagsSegment ∈ bracedTagsBlock.named Directive.name ∧
      (∀ n e r, Loop.directives.Runs ∅ (.ofTokens bracedTagsSegment) n e r → n = 1) ∧
      ∃ directive e, Directive.read ∅ (.ofTokens bracedTagsSegment) = (.ok directive, e) ∧
        directive.nodeName = "edge" ∧ directive.settings.tags = ["x", "\x7d"] ∧ e.ahead = [] := by
  have hdoc : Document.ofTokens bracedTags = .ok [bracedTagsBlock] := by decide +kernel
  have hmem : bracedTagsSegment ∈ bracedTagsBlock.named Directive.name := by decide
  have hread : (Directive.read ∅ (.ofTokens bracedTagsSegment)).1 =
      .ok ⟨"edge", { (∅ : Settings) with tags := ["x", "\x7d"] }⟩ := by decide +kernel
  obtain ⟨hruns, hpass⟩ := directive_read_once hdoc List.mem_cons_self hmem
  refine ⟨hdoc, hmem, fun n e r hrun => ((hruns n e r).mp hrun).1, _, _, Prod.ext hread rfl, rfl,
    rfl, ?_⟩
  exact (hpass _ _ (Prod.ext hread rfl)).1

end NodeLayers
