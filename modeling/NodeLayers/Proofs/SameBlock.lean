import NodeLayers.Proofs.FaultPlaces
import NodeLayers.Proofs.LaidBlocks
import NodeLayers.Proofs.LikeReadings
import NodeLayers.Proofs.MatchingBrace

namespace NodeLayers

/-- A node's name with the block that opens behind it. The tokens of its body end on lines above the
closing brace, they close each block that they open, and the first of them is no brace. -/
structure NodeBlock where
  name : Token
  brace : Token
  body : List Token
  last : Token
  named : name.text ≠ ""
  free : name.text ∉ ["auth_key", "control_url", "ephemeral", "state_dir", "webui", "tags"]
  plain : name.closes = false ∧ name.opens = false
  line : name.sharesLine brace = true
  opens : brace.opens = true
  closes : last.closes = true
  apart : ∀ t ∈ body, t.sharesLine last = false
  balanced : Balanced body
  first : ∀ t ∈ body.head?, t.closes = false ∧ t.opens = false

namespace NodeBlock

def tokens (b : NodeBlock) : List Token :=
  b.name :: (b.brace :: b.body ++ [b.last])

/-- The tokens of a document with nothing but this block in its global option. -/
def InOption (b : NodeBlock) (ts : List Token) : Prop :=
  ∃ start option brace last final,
    ts = start :: (option :: (brace :: b.tokens ++ [last]) ++ [final]) ∧
    start.opens = true ∧ option.text = App.name ∧ option.sharesLine brace = true ∧
    brace.opens = true ∧ last.closes = true ∧ final.closes = true

/-- The tokens of a document with nothing but a site, which has the directive with this block. -/
def InSite (b : NodeBlock) (ts : List Token) : Prop :=
  ∃ keys start directive final, ts = keys ++ start :: (directive :: b.tokens ++ [final]) ∧
    keys ≠ [] ∧ (∀ k ∈ keys, k.opens = false) ∧ OneLine (keys ++ [start]) ∧ start.opens = true ∧
    directive.text = Directive.name ∧ directive.sharesLine b.name = true ∧ final.closes = true

/-- What a reader keeps of the block behind its name. -/
def kept (b : NodeBlock) : List Token :=
  keptBlock b.brace b.body b.last

variable (b : NodeBlock)

theorem whole_tokens : Whole b.tokens :=
  whole_cons b.plain.1 b.plain.2 (b.balanced.whole.block b.opens b.closes)

theorem spelled : Segment.Spelled (b.name :: b.kept) b.tokens := by
  have header : Header b.name [] := ⟨b.plain.1, b.plain.2, by simp, List.IsChain.singleton b.name⟩
  exact spelled_of_whole header (oneLine_pair.mpr b.line) b.opens b.closes b.balanced.whole b.first

theorem readEntry_eq (option brace last : Token) :
    (∅ : App).readEntry
        ⟨b.name :: brace :: [option], (b.brace :: b.body ++ [b.last]) ++ [last], 1⟩ =
      ((readOptions (∅ : Settings) ⟨[b.name], b.kept, 0⟩).result.map
          fun s => (∅ : App).putNode ⟨b.name.text, s⟩,
        ⟨(b.brace :: b.body ++ [b.last]).reverse ++ b.name :: brace :: [option], [last], 1⟩) := by
  have htext : Cursor.text ⟨b.name :: brace :: [option],
      (b.brace :: b.body ++ [b.last]) ++ [last], 1⟩ = b.name.text := rfl
  rw [App.readEntry, htext, App.keyword?_eq_none b.free, kept]
  simp only [Node.read_of_spelled b.spelled b.opens b.line]
  cases (readOptions (∅ : Settings) ⟨[b.name], keptBlock b.brace b.body b.last, 0⟩).result <;> rfl

/-- The global option reads the block and nothing else. -/
theorem read_option {option brace last : Token} (hs : option.sharesLine brace = true)
    (hb : brace.opens = true) (hl : last.closes = true) :
    (App.read (.ofTokens (option :: (brace :: b.tokens ++ [last])))).1 =
      (readOptions (∅ : Settings) ⟨[b.name], b.kept, 0⟩).result.map
        fun s => (∅ : App).putNode ⟨b.name.text, s⟩ := by
  have hnext : (Cursor.ofTokens (option :: (brace :: b.tokens ++ [last]))).next? =
      some ⟨[option], brace :: b.name :: ((b.brace :: b.body ++ [b.last]) ++ [last]), 0⟩ := rfl
  have hmove : Cursor.nextInBlock
      ⟨[option], brace :: b.name :: ((b.brace :: b.body ++ [b.last]) ++ [last]), 0⟩ 0 =
      (true, ⟨b.name :: brace :: [option], (b.brace :: b.body ++ [b.last]) ++ [last], 1⟩) :=
    Cursor.nextInBlock_enter (Nat.le_refl 0) hs hb b.plain.1
  have hentry := b.readEntry_eq option brace last
  rw [App.read, hnext]
  cases hresult : (readOptions (∅ : Settings) ⟨[b.name], b.kept, 0⟩).result with
  | error e =>
    rw [hresult] at hentry
    simp only [App.readBlock_of_error hmove hentry]
    rfl
  | ok s =>
    rw [hresult] at hentry
    simp only [App.readBlock_of_ok hmove hentry,
      App.readBlock_of_false (Cursor.nextInBlock_close hl)]
    rfl

theorem spelled_option {option brace last : Token} (hname : option.text = App.name)
    (hs : option.sharesLine brace = true) (hb : brace.opens = true) (hl : last.closes = true) :
    Segment.Spelled (option :: (brace :: b.tokens ++ [last]))
      (option :: (brace :: b.tokens ++ [last])) := by
  have header : Header option [] :=
    ⟨by simp [Token.closes, hname, App.name], by simp [Token.opens, hname, App.name], by simp,
      List.IsChain.singleton option⟩
  refine spelled_of_whole header (oneLine_pair.mpr hs) hb hl b.whole_tokens fun u hu => ?_
  obtain rfl := Option.some.inj hu
  exact b.plain

theorem header_directive {directive : Token} (hname : directive.text = Directive.name)
    (hs : directive.sharesLine b.name = true) : Header directive [b.name] := by
  refine ⟨by simp [Token.closes, hname, Directive.name],
    by simp [Token.opens, hname, Directive.name], fun a ha => ?_, oneLine_pair.mpr hs⟩
  obtain rfl := List.mem_singleton.mp ha
  exact b.plain.2

theorem spelled_directive {directive : Token} (hname : directive.text = Directive.name)
    (hs : directive.sharesLine b.name = true) :
    Segment.Spelled (directive :: b.name :: b.kept) (directive :: b.tokens) :=
  spelled_of_whole (b.header_directive hname hs)
    (oneLine_cons_cons.mpr ⟨hs, oneLine_pair.mpr b.line⟩) b.opens b.closes b.balanced.whole b.first

/-- The directive reads the block and nothing else. -/
theorem read_directive {directive : Token} (hname : directive.text = Directive.name)
    (hs : directive.sharesLine b.name = true) :
    (Directive.read ∅ (.ofTokens (directive :: b.name :: b.kept))).1 =
      (readOptions (∅ : Settings) ⟨[b.name, directive], b.kept, 0⟩).result.map
        (⟨b.name.text, ·⟩) :=
  Directive.read_of_spelled (b.spelled_directive hname hs) (b.header_directive hname hs) b.opens
    b.named

end NodeBlock

/-- A document with one block, in which one directive stands with a block of its own. -/
theorem Document.ofTokens_of_one {s : Segment} {keys used : List Token} {start t final : Token}
    (hk : ∀ k ∈ keys, k.opens = false) (hline : OneLine (keys ++ [start]))
    (hb : start.opens = true) (h : s.Spelled (t :: used)) (hblock : ∃ u ∈ used, u.opens = true)
    (hl : final.closes = true) :
    Document.ofTokens (keys ++ start :: (t :: used ++ [final])) = .ok [⟨keys, [s]⟩] := by
  have hlines : LinesEnd [t :: used] [final] := by
    refine ⟨fun hplain => ?_, trivial⟩
    obtain ⟨u, hu, hopens⟩ := hblock
    cases (hplain u (List.mem_cons_of_mem t hu)).symm.trans hopens
  have hread : Block.ReadFrom ⟨keys, [s]⟩ (keys ++ start :: (t :: used ++ [final])) :=
    ⟨start, final, [t :: used], by simp, hk, hline, hb, hl, .cons h .nil, hlines⟩
  exact ofTokens_eq_ok_iff.mpr
    ⟨⟨[_], List.flatten_singleton.symm, .cons hread .nil⟩, fun _ hm => nomatch hm⟩

namespace Configuration

theorem ofDocument_of_option {s : Segment} (hs : s.isNamed App.name = true) :
    ofDocument [⟨[], [s]⟩] = (App.read (.ofTokens s)).1.map (⟨·, []⟩) := by
  have hglobal : ([⟨[], [s]⟩] : Document).filter Block.isGlobal = [⟨[], [s]⟩] := rfl
  have hsites : ([⟨[], [s]⟩] : Document).filter (!·.isGlobal) = [] := rfl
  have hnamed : Block.named ⟨[], [s]⟩ App.name = [s] := by simp [Block.named, hs]
  rw [ofDocument, hglobal, hsites, List.flatMap_singleton, hnamed, readApp]
  cases (App.read (.ofTokens s)).1 <;> rfl

theorem ofDocument_of_site {s : Segment} {keys : List Token} (hk : keys ≠ [])
    (hs : s.isNamed Directive.name = true) :
    ofDocument [⟨keys, [s]⟩] = (Directive.read ∅ (.ofTokens s)).1.map fun d => ⟨∅, [d]⟩ := by
  have hglobal : ([⟨keys, [s]⟩] : Document).filter Block.isGlobal = [] := by
    simp [Block.isGlobal, hk]
  have hsites : ([⟨keys, [s]⟩] : Document).filter (!·.isGlobal) = [⟨keys, [s]⟩] := by
    simp [Block.isGlobal, hk]
  have hnamed : Block.named ⟨keys, [s]⟩ Directive.name = [s] := by simp [Block.named, hs]
  rw [ofDocument, hglobal, hsites, List.flatMap_singleton, hnamed]
  simp only [List.mapM_cons, List.mapM_nil]
  cases (Directive.read ∅ (.ofTokens s)).1 <;> rfl

end Configuration

namespace NodeBlock

variable {source : Source} {text : String} {ts : List Token} {b : NodeBlock}

theorem InOption.ofText (h : b.InOption ts) (ht : tokenize source text = .ok ts) :
    Configuration.ofText source text =
      (readOptions (∅ : Settings) ⟨[b.name], b.kept, 0⟩).result.map
        fun s => ⟨(∅ : App).putNode ⟨b.name.text, s⟩, []⟩ := by
  obtain ⟨start, option, brace, last, final, rfl, hstart, hname, hline, hb, hl, hfinal⟩ := h
  have hnone : ∀ k ∈ ([] : List Token), k.opens = false := by simp
  have hdocument := Document.ofTokens_of_one hnone (List.IsChain.singleton start)
    hstart (b.spelled_option hname hline hb hl)
    ⟨brace, List.mem_cons_self, hb⟩ hfinal
  have hnamed : Segment.isNamed (option :: (brace :: b.tokens ++ [last])) App.name = true := by
    simp [Segment.isNamed, hname]
  rw [Configuration.ofText_eq ht hdocument, Configuration.ofDocument_of_option hnamed,
    b.read_option hline hb hl]
  cases (readOptions (∅ : Settings) ⟨[b.name], b.kept, 0⟩).result <;> rfl

theorem InSite.ofText (h : b.InSite ts) (ht : tokenize source text = .ok ts) :
    ∃ directive, Configuration.ofText source text =
      (readOptions (∅ : Settings) ⟨[b.name, directive], b.kept, 0⟩).result.map
        fun s => ⟨∅, [⟨b.name.text, s⟩]⟩ := by
  obtain ⟨keys, start, directive, final, rfl, hne, hk, hkeys, hstart, hname, hline, hfinal⟩ := h
  have hdocument := Document.ofTokens_of_one hk hkeys hstart (b.spelled_directive hname hline)
    ⟨b.brace, by simp [tokens], b.opens⟩ hfinal
  have hnamed : Segment.isNamed (directive :: b.name :: b.kept) Directive.name = true := by
    simp [Segment.isNamed, hname]
  refine ⟨directive, ?_⟩
  rw [Configuration.ofText_eq ht hdocument, Configuration.ofDocument_of_site hne hnamed,
    b.read_directive hname hline]
  cases (readOptions (∅ : Settings) ⟨[b.name, directive], b.kept, 0⟩).result <;> rfl

end NodeBlock

theorem SameFilling.result {r : Token → Token → Prop} {l : Location → Location → Prop} {τ : Type}
    {x y : Filling τ} (h : SameFilling r l x y) : Agree l Eq x.result y.result := by
  obtain ⟨hrecord, _, hfailure⟩ := h
  unfold Filling.result
  revert hfailure
  generalize x.failure = f, y.failure = g
  intro hfailure
  cases hfailure with
  | none => exact .ok hrecord
  | some he => exact .error he

/-- Two tokens with one text that stand as far below `p` and below `q`. -/
structure Token.Matches (p q : Location) (t u : Token) : Prop where
  text : t.text = u.text
  quoted : t.quoted = u.quoted
  source : t.source = p.source
  source' : u.source = q.source
  line : t.line + q.line = u.line + p.line

/-- Places as far below `p` and below `q`; where there are no tokens there is no place. -/
def Location.Matches (p q l m : Location) : Prop :=
  (l.source = p.source ∧ m.source = q.source ∧ l.line + q.line = m.line + p.line) ∨
    l = ⟨none, 0⟩ ∧ m = ⟨none, 0⟩

theorem alike_matches (p q : Location) : Alike (Token.Matches p q) (Location.Matches p q) where
  text h := h.text
  opens h := by rw [Token.opens, Token.opens, h.text, h.quoted]
  closes h := by rw [Token.closes, Token.closes, h.text, h.quoted]
  sharesLine := by
    intro t t' u u' ht hu
    have hlast : t.lastLine + q.line = t'.lastLine + p.line := by
      have hline := ht.line
      rw [Token.lastLine, Token.lastLine, ht.text]
      omega
    have hline := hu.line
    have hsame : u.line ≤ t.lastLine ↔ u'.line ≤ t'.lastLine := by omega
    rw [Token.sharesLine, Token.sharesLine, ht.source, hu.source, ht.source', hu.source',
      Source.agrees_self, Source.agrees_self, decide_eq_decide.mpr hsame]
  location h := Or.inl ⟨h.source, h.source', h.line⟩
  nowhere := Or.inr ⟨rfl, rfl⟩

namespace NodeBlock

/-- The same block at another place: its tokens are the same, as far below the opening brace. -/
structure Same (b b' : NodeBlock) : Prop where
  name : Token.Matches b.brace.location b'.brace.location b.name b'.name
  brace : Token.Matches b.brace.location b'.brace.location b.brace b'.brace
  body : List.Forall₂ (Token.Matches b.brace.location b'.brace.location) b.body b'.body
  last : Token.Matches b.brace.location b'.brace.location b.last b'.last

variable {b b' : NodeBlock}

theorem Same.kept (h : b.Same b') :
    List.Forall₂ (Token.Matches b.brace.location b'.brace.location) b.kept b'.kept := by
  have hbody := h.body
  unfold NodeBlock.kept keptBlock
  generalize b.body = body, b'.body = body' at hbody ⊢
  cases hbody with
  | nil => exact .nil
  | cons hfirst hinner =>
    rw [if_neg (List.cons_ne_nil _ _), if_neg (List.cons_ne_nil _ _)]
    exact .cons h.brace (List.rel_append (.cons hfirst hinner) (.cons h.last .nil))

theorem Same.filling (h : b.Same b') (t : Token) :
    SameFilling (Token.Matches b.brace.location b'.brace.location)
      (Location.Matches b.brace.location b'.brace.location)
      (readOptions (∅ : Settings) ⟨[b.name], b.kept, 0⟩)
      (readOptions (∅ : Settings) ⟨[b'.name, t], b'.kept, 0⟩) := by
  have hfollows : Cursor.Follows (Token.Matches b.brace.location b'.brace.location)
      ⟨[b.name], b.kept, 0⟩ ⟨[b'.name, t], b'.kept, 0⟩ :=
    ⟨⟨h.kept, rfl, [b'.name], [t], rfl, .cons h.name .nil⟩, fun hnil => nomatch hnil⟩
  exact hfollows.readOptions (alike_matches _ _) ∅

theorem foundIn_result (b : NodeBlock) {passed : List Token} {e : ParseError}
    (he : (readOptions (∅ : Settings) ⟨b.name :: passed, b.kept, 0⟩).result = .error e) :
    e.FoundIn b.body :=
  Cursor.foundIn_readOptions b.apart b.closes b.line b.opens (fun t ht => (b.first t ht).1)
    (Filling.failure_of_result he)

theorem Same.line_eq {t u : Token} (h : b.Same b') (ht : t ∈ b.body) (hu : u ∈ b'.body)
    (hl : Location.Matches b.brace.location b'.brace.location t.location u.location) :
    t.line + b'.brace.line = u.line + b.brace.line := by
  rcases hl with ⟨_, _, hline⟩ | ⟨hnowhere, hnowhere'⟩
  · exact hline
  · -- both bodies have a token on line 0, so that the blocks open on the same line
    obtain ⟨t', _, htt⟩ := exists_of_mem_of_forall₂ h.body ht
    obtain ⟨u', _, huu⟩ := exists_of_mem_of_forall₂ h.body.flip hu
    have htline : t.line = 0 := congrArg Location.line hnowhere
    have huline : u.line = 0 := congrArg Location.line hnowhere'
    have hleft : t.line + b'.brace.line = t'.line + b.brace.line := htt.line
    have hright : u'.line + b'.brace.line = u.line + b.brace.line := huu.line
    omega

end NodeBlock

namespace Configuration

/-- A block of options is read alike as a named block of the global option and as the block of a
site's directive: to the same node, or to the same fault on the same line of its body. -/
theorem ofText_sameBlock {source source' : Source} {text text' : String} {ts us : List Token}
    {b b' : NodeBlock} (h : b.Same b') (ht : tokenize source text = .ok ts) (hb : b.InOption ts)
    (hu : tokenize source' text' = .ok us) (hb' : b'.InSite us) :
    (∃ c d, ofText source text = .ok c ∧ ofText source' text' = .ok ⟨∅, [d]⟩ ∧
        d.nodeName = b.name.text ∧ c = ⟨(∅ : App).putNode d.node, []⟩ ∧
        c.app.nodes.get? b.name.text = some d.node) ∨
      ∃ t ∈ b.body, ∃ u ∈ b'.body, ∃ fault,
        t.line + b'.brace.line = u.line + b.brace.line ∧
          ofText source text = .error ⟨t.location, fault⟩ ∧
          ofText source' text' = .error ⟨u.location, fault⟩ := by
  have hoption := hb.ofText ht
  obtain ⟨directive, hsite⟩ := hb'.ofText hu
  have hsame := (h.filling directive).result
  cases hresult : (readOptions (∅ : Settings) ⟨[b.name], b.kept, 0⟩).result with
  | ok s =>
    obtain ⟨s', hresult', rfl⟩ := hsame.of_ok hresult
    rw [hresult] at hoption
    rw [hresult', ← h.name.text] at hsite
    have hnode : Directive.node ⟨b.name.text, s⟩ = ⟨b.name.text, s⟩ := by
      rw [Directive.node, Directive.effectiveName, Directive.orDefault, if_neg b.named]
    refine Or.inl ⟨_, ⟨b.name.text, s⟩, hoption, hsite, rfl, by rw [hnode], ?_⟩
    rw [hnode]
    exact (Table.get?_insert _ _ _ _).trans (if_pos rfl)
  | error e =>
    obtain ⟨e', hresult', hplace, hfault⟩ := hsame.of_error hresult
    obtain ⟨t, ht, hloc⟩ := b.foundIn_result hresult
    obtain ⟨u, hu, hloc'⟩ := b'.foundIn_result hresult'
    rw [hresult] at hoption
    rw [hresult'] at hsite
    rw [hloc, hloc'] at hplace
    refine Or.inr ⟨t, ht, u, hu, e.fault, h.line_eq ht hu hplace, ?_, ?_⟩
    · rw [hoption, ← hloc]
      rfl
    · rw [hsite, ← hloc', hfault]
      rfl

/-- A block with a port that is too large. -/
def portBlock (n : Nat) : NodeBlock where
  name := ⟨none, n, "edge", false⟩
  brace := ⟨none, n, "\x7b", false⟩
  body := [⟨none, n + 1, "port", false⟩, ⟨none, n + 1, "70000", false⟩]
  last := ⟨none, n + 2, "\x7d", false⟩
  named := by simp
  free := by simp
  plain := ⟨rfl, rfl⟩
  line := by simp [Token.sharesLine, Token.lastLine]
  opens := rfl
  closes := rfl
  apart := by simp [Token.sharesLine, Token.lastLine, newlines]
  balanced := balanced_iff_level?.mpr rfl
  first := by simp [Token.closes, Token.opens]

def portOptionText : String :=
  "\x7b\n tailscale \x7b\n edge \x7b\n port 70000\n \x7d\n \x7d\n\x7d\n"

def portSiteText : String :=
  "a \x7b\n tailscale edge \x7b\n port 70000\n \x7d\n\x7d\n"

theorem ofText_portBlock :
    ∃ fault, ofText none portOptionText = .error ⟨⟨none, 4⟩, fault⟩ ∧
      ofText none portSiteText = .error ⟨⟨none, 3⟩, fault⟩ := by
  have hsame : (portBlock 3).Same (portBlock 2) :=
    ⟨⟨rfl, rfl, rfl, rfl, rfl⟩, ⟨rfl, rfl, rfl, rfl, rfl⟩,
      .cons ⟨rfl, rfl, rfl, rfl, rfl⟩ (.cons ⟨rfl, rfl, rfl, rfl, rfl⟩ .nil),
      ⟨rfl, rfl, rfl, rfl, rfl⟩⟩
  have hoption : tokenize none portOptionText =
      .ok (⟨none, 1, "\x7b", false⟩ :: (⟨none, 2, "tailscale", false⟩ ::
        (⟨none, 2, "\x7b", false⟩ :: (portBlock 3).tokens ++ [⟨none, 6, "\x7d", false⟩]) ++
        [⟨none, 7, "\x7d", false⟩])) := by
    decide +kernel
  have hsite : tokenize none portSiteText =
      .ok ([⟨none, 1, "a", false⟩] ++ ⟨none, 1, "\x7b", false⟩ ::
        (⟨none, 2, "tailscale", false⟩ :: (portBlock 2).tokens ++ [⟨none, 5, "\x7d", false⟩])) := by
    decide +kernel
  have hfail : (ofText none portOptionText).toOption = none := by decide +kernel
  have hplace : ∀ n, ∀ t ∈ (portBlock n).body, t.location = ⟨none, n + 1⟩ := by
    simp [portBlock, Token.location]
  have hboth := ofText_sameBlock hsame hoption
    ⟨_, _, _, _, _, rfl, by decide, by decide, by decide, by decide, by decide, by decide⟩ hsite
    ⟨_, _, _, _, rfl, by decide, by decide, oneLine_pair.mpr (by decide), by decide, by decide,
      by decide, by decide⟩
  rcases hboth with ⟨c, _, hc, _⟩ | ⟨t, ht, u, hu, fault, _, herror, herror'⟩
  · rw [hc] at hfail
    cases hfail
  · rw [hplace 3 t ht] at herror
    rw [hplace 2 u hu] at herror'
    exact ⟨fault, herror, herror'⟩

end Configuration

end NodeLayers
