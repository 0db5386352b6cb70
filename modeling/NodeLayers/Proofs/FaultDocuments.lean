import NodeLayers.Proofs.FaultTokens
import NodeLayers.Proofs.LikeDocuments
import NodeLayers.Proofs.Pieces
import NodeLayers.Proofs.Precedence

namespace NodeLayers

namespace Cursor

variable {ts : List Token} {c d : Cursor} {e : ParseError} {opening : Location}

theorem AtTokenOf.fits_of_atOpen (h : c.AtTokenOf ts) (ho : c.atOpen = true) {fault : Fault}
    (hf : ∀ t : Token, t.opens = true → fault.Fits t) : (c.fail fault).PointsInto ts := by
  refine h.fail fun t hc => hf t ?_
  simpa [atOpen, hc] using ho

theorem AtTokenOf.blockKeys_error (h : c.AtTokenOf ts) (he : c.blockKeys = .error e) :
    e.PointsInto ts := by
  unfold blockKeys at he
  split at he
  next => cases he
  next =>
    simp only at he
    split at he
    next => cases he
    next =>
      cases he
      exact (keepsArguments_atTokenOf.args h).fail fun _ _ => trivial

theorem tokens_of_blockKeys {keys : List Token} (h : c.blockKeys = .ok (keys, d)) :
    d.tokens = c.tokens := by
  unfold blockKeys at h
  split at h
  next => cases h; rfl
  next =>
    simp only at h
    split at h
    next =>
      cases h
      cases hn : c.args.2.next? with
      | none => exact tokens_args c
      | some e => exact (tokens_of_next? hn).trans (tokens_args c)
    next => cases h

theorem tokens_of_blockSegments {segments : List Segment}
    (h : c.blockSegments opening = .ok (segments, d)) : d.tokens = c.tokens := by
  fun_induction blockSegments c opening generalizing segments d with
  | case1 => cases h
  | case2 c e hn => cases h; exact tokens_of_next? hn
  | case3 => cases h
  | case4 => cases h
  | case5 => cases h
  | case6 c e hn _ _ _ _ _ inner last hrest ih =>
    cases h
    exact (ih hrest).trans ((tokens_segment e).trans (tokens_of_next? hn))

theorem AtTokenOf.blockKeys_ok (h : c.AtTokenOf ts) {keys : List Token}
    (hk : c.blockKeys = .ok (keys, d)) : d.AtTokenOf ts ∧ d.atOpen = true := by
  obtain ⟨t, _, hc⟩ := h.current?
  obtain ⟨b, hb, hopens, _⟩ := spelled_blockKeys hc hk
  refine ⟨h.move (tokens_of_blockKeys hk) (length_ahead_of_blockKeys hk), ?_⟩
  rw [atOpen, hb]
  exact hopens

theorem pointsInto_of_blockSegments (h : c.tokens ⊆ ts)
    (ho : ∀ fault : Fault, (∀ t : Token, t.opens = true → fault.Fits t) →
      ParseError.PointsInto ⟨opening, fault⟩ ts)
    (he : c.blockSegments opening = .error e) : e.PointsInto ts := by
  fun_induction blockSegments c opening with
  | case1 => cases he; exact ho _ fun _ hopens => hopens
  | case2 => cases he
  | case3 c d hn hclose hopen =>
    cases he
    exact (AtTokenOf.of_next? h hn).fits_of_atOpen hopen fun _ hopens => hopens
  | case4 => cases he; exact ho _ fun _ hopens => hopens
  | case5 c d hn hclose hopen hnesting _ _ e' hrest ih =>
    cases he
    exact ih (AtTokenOf.of_next? h hn).segment.2.2.tokens hrest
  | case6 => cases he

theorem pointsInto_of_blocks {first : Bool} (h : c.tokens ⊆ ts) (he : c.blocks first = .error e) :
    e.PointsInto ts := by
  fun_induction blocks c first with
  | case1 => cases he
  | case2 c first d hn e' hk =>
    cases he
    exact (AtTokenOf.of_next? h hn).blockKeys_error hk
  | case3 c first d hn keys brace hk hlate =>
    cases he
    obtain ⟨hbrace, hopen⟩ := (AtTokenOf.of_next? h hn).blockKeys_ok hk
    exact hbrace.fits_of_atOpen hopen fun _ hopens => hopens
  | case4 c first d hn keys brace hk hlate e' hs =>
    cases he
    obtain ⟨hbrace, hopen⟩ := (AtTokenOf.of_next? h hn).blockKeys_ok hk
    exact pointsInto_of_blockSegments hbrace.tokens (fun _ hf => hbrace.fits_of_atOpen hopen hf) hs
  | case5 c first d hn keys brace hk hlate segments last hs _ _ _ e' hrest ih =>
    cases he
    obtain ⟨hbrace, _⟩ := (AtTokenOf.of_next? h hn).blockKeys_ok hk
    exact ih (tokens_of_blockSegments hs ▸ hbrace.tokens) hrest
  | case6 => cases he

end Cursor

section document

variable {ts us : List Token} {s : Segment} {b : Block} {d : Document} {e : ParseError}

theorem Document.pointsInto_of_ofTokens (h : ofTokens ts = .error e) : e.PointsInto ts := by
  have hstart : (Cursor.ofTokens ts).tokens ⊆ ts := List.Subset.refl ts
  exact Cursor.pointsInto_of_blocks hstart h

theorem Segment.Spelled.subset (h : s.Spelled us) : s ⊆ us := by
  cases h with
  | line => exact List.Subset.refl _
  | emptyBlock => exact List.subset_append_left _ _
  | block => exact List.Subset.refl _

theorem Document.Spelled.segment_subset (h : d.Spelled ts) (hb : b ∈ d) (hs : s ∈ b.segments) :
    s ⊆ ts := by
  obtain ⟨parts, rfl, hparts⟩ := h
  obtain ⟨part, hpart, brace, last, inner, rfl, _, _, _, hsegments⟩ :=
    exists_of_mem_of_forall₂ hparts hb
  obtain ⟨us, hus, hspelled⟩ := exists_of_mem_of_forall₂ hsegments hs
  intro t ht
  have hinner : t ∈ inner.flatten := List.mem_flatten.mpr ⟨us, hus, hspelled.subset ht⟩
  exact List.mem_flatten.mpr ⟨_, hpart, by simp [hinner]⟩

/-- The directives of this name are no empty lists of tokens, and all their tokens are of the
document. -/
theorem Document.Spelled.named (h : d.Spelled ts) {blocks : Document} (hblocks : blocks ⊆ d)
    {name : String} (hs : s ∈ blocks.flatMap (·.named name)) :
    s ⊆ ts ∧ ∃ t rest, s = t :: rest ∧ t.text = name := by
  obtain ⟨b, hb, hsb⟩ := List.mem_flatMap.mp hs
  obtain ⟨hsegment, hname⟩ := List.mem_filter.mp hsb
  refine ⟨h.segment_subset (hblocks hb) hsegment, ?_⟩
  cases s with
  | nil => cases hname
  | cons t rest => exact ⟨t, rest, rfl, by simpa [Segment.isNamed] using hname⟩

theorem Configuration.exists_of_mapM_error {α β : Type} {f : α → Except ParseError β} {xs : List α}
    (h : xs.mapM f = .error e) : ∃ x ∈ xs, f x = .error e := by
  induction xs with
  | nil => cases h
  | cons x xs ih =>
    rw [List.mapM_cons] at h
    cases hx : f x with
    | error e' =>
      rw [hx] at h
      cases h
      exact ⟨x, List.mem_cons_self, hx⟩
    | ok y =>
      rw [hx] at h
      cases hxs : xs.mapM f with
      | error e' =>
        rw [hxs] at h
        cases h
        obtain ⟨z, hz, he⟩ := ih hxs
        exact ⟨z, List.mem_cons_of_mem x hz, he⟩
      | ok ys =>
        rw [hxs] at h
        cases h

theorem Configuration.pointsInto_of_readApp {segments : List Segment}
    (hs : ∀ s ∈ segments, s ⊆ ts ∧ ∃ t rest, s = t :: rest ∧ t.text = App.name)
    (h : readApp segments = .error e) : e.PointsInto ts := by
  cases segments with
  | nil => cases h
  | cons s segments =>
    obtain ⟨hsub, t, rest, rfl, _⟩ := hs s List.mem_cons_self
    have hfirst : ∀ e, (App.read (.ofTokens (t :: rest))).1 = .error e → e.PointsInto ts :=
      fun e he => (App.pointsInto_of_read (List.cons_ne_nil t rest) he).mono hsub
    cases segments with
    | nil => exact hfirst e h
    | cons again segments =>
      obtain ⟨hsub', u, rest', rfl, hname⟩ := hs again (by simp)
      cases hread : (App.read (.ofTokens (t :: rest))).1 with
      | error e' =>
        rw [readApp, hread] at h
        cases h
        exact hfirst _ hread
      | ok a =>
        rw [readApp, hread] at h
        cases h
        exact ⟨u, hsub' List.mem_cons_self, rfl, hname⟩

theorem Configuration.pointsInto_of_ofDocument (hd : Document.ofTokens ts = .ok d)
    (h : ofDocument d = .error e) : e.PointsInto ts := by
  have hspelled := Document.spelled_ofTokens hd
  unfold ofDocument at h
  cases happ : readApp ((d.filter Block.isGlobal).flatMap (·.named App.name)) with
  | error e' =>
    rw [happ] at h
    cases h
    exact pointsInto_of_readApp (fun s hs => hspelled.named List.filter_sublist.subset hs) happ
  | ok app =>
    rw [happ] at h
    cases hsites : ((d.filter (!·.isGlobal)).flatMap (·.named Directive.name)).mapM
        fun s => (Directive.read ∅ (.ofTokens s)).1 with
    | error e' =>
      simp only [bind, Except.bind, hsites] at h
      cases h
      obtain ⟨s, hs, hread⟩ := exists_of_mapM_error hsites
      have htokens : (Cursor.ofTokens s).tokens ⊆ ts :=
        (hspelled.named List.filter_sublist.subset hs).1
      exact Directive.pointsInto_of_read htokens hread
    | ok directives =>
      simp only [bind, Except.bind, hsites] at h
      cases h

end document

section source

def Token.inSource (source : Source) (t : Token) : Token :=
  { t with source }

/-- The same error in a text from elsewhere. -/
def ParseError.inSource (source : Source) (e : ParseError) : ParseError :=
  ⟨⟨source, e.location.line⟩, e.fault⟩

variable {source : Source} {text : String} {e : ParseError}

theorem tokensOf_inSource (source source' : Source) (line : Nat) (ps : List Piece) :
    tokensOf source' line ps = (tokensOf source line ps).map (·.inSource source') := by
  induction ps generalizing line with
  | nil => rfl
  | cons p ps ih =>
    have htoken : (p.token? source' line).toList =
        (p.token? source line).toList.map (·.inSource source') := by
      cases p <;> rfl
    rw [tokensOf, tokensOf, List.map_append, htoken, ih]

/-- Which tokens continue a line depends on their lines only, as long as all come from one
source. -/
theorem alike_inSource (source source' : Source) :
    Alike (fun t u => t.source = source ∧ u = t.inSource source') fun k l => k.line = l.line where
  text := by rintro t _ ⟨_, rfl⟩; rfl
  opens := by rintro t _ ⟨_, rfl⟩; rfl
  closes := by rintro t _ ⟨_, rfl⟩; rfl
  sharesLine := by
    rintro t _ u _ ⟨ht, rfl⟩ ⟨hu, rfl⟩
    simp only [Token.sharesLine, Token.inSource, ht, hu, Source.agrees_self]
    rfl
  location := by rintro t _ ⟨_, rfl⟩; rfl
  nowhere := rfl

namespace Configuration

theorem pointsInto_of_ofText {ts : List Token} (ht : tokenize source text = .ok ts)
    (h : ofText source text = .error e) : e.PointsInto ts := by
  cases hd : Document.ofTokens ts with
  | error e' =>
    simp only [ofText, ht, hd, bind, Except.bind] at h
    cases h
    exact Document.pointsInto_of_ofTokens hd
  | ok d =>
    rw [ofText_eq ht hd] at h
    exact pointsInto_of_ofDocument hd h

theorem source_of_pointsInto {ts : List Token} (ht : tokenize source text = .ok ts)
    (h : e.PointsInto ts) : e.location.source = source := by
  obtain ⟨t, hmem, hlocation, _⟩ := h
  rw [hlocation]
  exact source_of_mem_tokenize ht hmem

theorem forall₂_inSource (source' : Source) {ts : List Token}
    (ht : tokenize source text = .ok ts) :
    List.Forall₂ (fun t u => t.source = source ∧ u = t.inSource source') ts
      (ts.map (·.inSource source')) := by
  refine List.forall₂_map_right_iff.mpr (List.forall₂_same.mpr fun t hmem => ?_)
  exact ⟨source_of_mem_tokenize ht hmem, rfl⟩

theorem ofText_inSource (source source' : Source) (text : String) :
    ofText source' text = (ofText source text).mapError (·.inSource source') := by
  cases hquote : (Pieces.ofChars text.toList).unclosed with
  | some q =>
    simp only [ofText, tokenize, hquote]
    rfl
  | none =>
    have ht : tokenize source text = .ok _ := tokenize_eq_ok_iff.mpr ⟨hquote, rfl⟩
    have ht' := tokenize_eq_ok_iff.mpr ⟨hquote, tokensOf_inSource source source' 1 _⟩
    have hagree := agree_ofText (alike_inSource source source') ht ht' (forall₂_inSource source' ht)
    cases hx : ofText source text with
    | ok c =>
      obtain ⟨c', hc', rfl⟩ := hagree.of_ok hx
      exact hc'
    | error e =>
      obtain ⟨e', he', hline, hfault⟩ := hagree.of_error hx
      have hsource := source_of_pointsInto ht' (pointsInto_of_ofText ht' he')
      have hsame : e' = e.inSource source' := by
        rw [ParseError.inSource, hline, hfault, ← hsource]
      rw [he', hsame]
      rfl

/-- An error stands at a token of the text, and its fault is one of that token; or else a quote is
never closed, and the error stands where it opens. Where a text comes from counts for nothing but
the place of an error. -/
theorem ofText_points (source : Source) (text : String) :
    (∀ e, ofText source text = .error e → e.location.source = source ∧
      ((∃ q before rest, e.fault = .unterminatedQuote q ∧
          text.toList = before.flatMap Piece.chars ++ rest ∧ ReadableBefore before rest ∧
          q.OpensForever rest ∧ e.location.line = 1 + newlines (before.flatMap Piece.chars)) ∨
        ∃ ts, tokenize source text = .ok ts ∧ ∃ t ∈ ts, e.PointsTo t ∧
          ∀ name, e.fault = .unknownOption name →
            e.fault.message = "unrecognized subdirective: " ++ t.text)) ∧
      ∀ source', ofText source' text = (ofText source text).mapError (·.inSource source') := by
  refine ⟨fun e he => ?_, fun source' => ofText_inSource source source' text⟩
  cases hquote : (Pieces.ofChars text.toList).unclosed with
  | some q =>
    obtain ⟨rest, htext, hreadable, _, hopens⟩ := Pieces.readableBefore_ofChars text.toList
    simp only [ofText, tokenize, hquote, bind, Except.bind] at he
    cases he
    exact ⟨rfl, Or.inl ⟨q, _, rest, rfl, htext, hreadable, hopens q hquote, rfl⟩⟩
  | none =>
    have ht : tokenize source text = .ok _ := tokenize_eq_ok_iff.mpr ⟨hquote, rfl⟩
    have hpoints := pointsInto_of_ofText ht he
    refine ⟨source_of_pointsInto ht hpoints, ?_⟩
    obtain ⟨t, hmem, hlocation, hfits⟩ := hpoints
    refine Or.inr ⟨_, ht, t, hmem, ⟨hlocation, hfits⟩, ?_⟩
    intro name hname
    rw [hname] at hfits ⊢
    exact congrArg ("unrecognized subdirective: " ++ ·) hfits.symm

def badPortText : String :=
  "a \x7b\n  tailscale \x7b\n    port 80x\n  \x7d\n\x7d"

theorem ofText_badPort :
    ofText none badPortText = .error ⟨⟨none, 3⟩, .invalidValue "80x" (.port .notDigit)⟩ ∧
      (∃ ts, tokenize none badPortText = .ok ts ∧ ∃ t ∈ ts, t.line = 3 ∧ t.text = "80x") ∧
      ofText (some ⟨"/etc/file"⟩) badPortText =
        .error ⟨⟨some ⟨"/etc/file"⟩, 3⟩, .invalidValue "80x" (.port .notDigit)⟩ := by
  have h : ofText none badPortText =
      .error ⟨⟨none, 3⟩, .invalidValue "80x" (.port .notDigit)⟩ := by
    decide +kernel
  obtain ⟨hpoints, hsource⟩ := ofText_points none badPortText
  have hplace := hsource (some ⟨"/etc/file"⟩)
  rw [h] at hplace
  refine ⟨h, ?_, hplace⟩
  obtain ⟨_, ⟨q, _, _, hquote, _⟩ | ⟨ts, ht, t, hmem, ⟨hlocation, htext, _⟩, _⟩⟩ := hpoints _ h
  · cases hquote
  · exact ⟨ts, ht, t, hmem, congrArg Location.line hlocation.symm, htext⟩

end Configuration

end source

end NodeLayers
