import NodeLayers.Proofs.Extension
import NodeLayers.Proofs.LikeDocuments
import NodeLayers.Proofs.Pieces

namespace NodeLayers

/-- A place some lines further down; where there are no tokens there is no place to move. -/
def Location.Below (k : Nat) (p q : Location) : Prop :=
  q = { p with line := p.line + k } ∨ p = ⟨none, 0⟩ ∧ q = ⟨none, 0⟩

theorem Token.sharesLine_lower (k : Nat) (t u : Token) :
    (t.lower k).sharesLine (u.lower k) = t.sharesLine u := by
  have hlast : (t.lower k).lastLine = t.lastLine + k := Nat.add_right_comm _ _ _
  have hline : (u.lower k).line ≤ (t.lower k).lastLine ↔ u.line ≤ t.lastLine := by
    rw [hlast]
    exact Nat.add_le_add_iff_right
  exact congrArg (t.source.agrees u.source && ·) (decide_eq_decide.mpr hline)

/-- Nothing but the places of faults depends on the line on which a text starts. -/
theorem alike_lower (k : Nat) : Alike (fun t u => u = t.lower k) (Location.Below k) where
  text h := by subst h; rfl
  opens h := by subst h; rfl
  closes h := by subst h; rfl
  sharesLine := by
    rintro t _ u _ rfl rfl
    exact (Token.sharesLine_lower k t u).symm
  location h := by subst h; exact Or.inl rfl
  nowhere := Or.inr ⟨rfl, rfl⟩

theorem forall₂_lower (k : Nat) (ts : List Token) :
    List.Forall₂ (fun t u => u = t.lower k) ts (ts.map (·.lower k)) := by
  induction ts with
  | nil => exact .nil
  | cons t ts ih => exact .cons rfl ih

namespace Cursor

variable {c : Cursor} {first : Bool} {b : Block} {d : Document}

/-- Only a block without keys depends on whether it is the first. -/
theorem blocks_of_no_global (h : c.blocks true = .ok d) (hd : ∀ b ∈ d, b.isGlobal = false)
    (first : Bool) : c.blocks first = .ok d := by
  cases d with
  | nil => exact blocks_of_none (next?_of_blocks_nil h)
  | cons b d =>
    obtain ⟨e, brace, last, hn, hk, _, hs, hrest⟩ := blocks_eq_cons h
    have hkeys : b.keys.isEmpty = false := hd b List.mem_cons_self
    rw [blocks_of_block hn hk (by rw [hkeys]; rfl) hs, hrest]
    rfl

/-- Behind another block an opening brace where keys should stand is the fault that counts. -/
theorem blocks_of_opens {c : Cursor} {brace : Token} {rest : List Token}
    (ha : c.ahead = brace :: rest) (hb : brace.opens = true) :
    c.blocks false = .error ⟨brace.location, .lateGlobalBlock⟩ := by
  have hnext : c.next? = some ⟨brace :: c.passed, rest, c.nesting⟩ := by rw [next?, ha]
  have hkeys : blockKeys ⟨brace :: c.passed, rest, c.nesting⟩ =
      .ok ([], ⟨brace :: c.passed, rest, c.nesting⟩) := by
    rw [blockKeys]
    exact if_pos (by simp [atOpen, current?, hb])
  rw [blocks_of_late hnext hkeys rfl]
  rfl

end Cursor

/-- A document with a block without keys begins with the brace of that block. -/
theorem Document.head?_of_isGlobal {ts : List Token} {d : Document}
    (h : Document.ofTokens ts = .ok d) {b : Block} (hb : b ∈ d) (hg : b.isGlobal = true) :
    ∃ brace ∈ ts.head?, brace.opens = true := by
  cases d with
  | nil => cases hb
  | cons x d =>
    obtain ⟨_, _, last, _, _, _, _, hrest⟩ := Cursor.blocks_eq_cons h
    have hfirst : x.keys = [] := by
      rcases List.mem_cons.mp hb with rfl | hm
      · exact List.isEmpty_iff.mp hg
      · rw [Cursor.isGlobal_of_mem_blocks hrest b hm] at hg
        cases hg
    obtain ⟨parts, rfl, hparts⟩ := Document.spelled_ofTokens h
    obtain ⟨p, ps, hx, _, rfl⟩ := List.forall₂_cons_left_iff.mp hparts
    obtain ⟨brace, close, inner, rfl, _, hopens, _⟩ := hx
    rw [hfirst]
    exact ⟨brace, rfl, hopens⟩

/-- Behind a document its blocks are followed by those of the tokens that come next. -/
theorem Document.ofTokens_append {ts : List Token} {d : Document}
    (h : Document.ofTokens ts = .ok d) (us : List Token) :
    ∃ last : Cursor, last.ahead = us ∧ last.nesting = 0 ∧
      Document.ofTokens (ts ++ us) = (last.blocks d.isEmpty).map (d ++ ·) := by
  obtain ⟨last, hahead, hnesting, hmore⟩ := Cursor.blocks_extend h rfl
  have hrest : (last.extend us).ahead = us := by rw [Cursor.extend, hahead, List.nil_append]
  exact ⟨last.extend us, hrest, hnesting, hmore us⟩

theorem Document.ofTokens_append_lower {ts us : List Token} {d e : Document}
    (hd : Document.ofTokens ts = .ok d) (he : Document.ofTokens us = .ok e)
    (hg : ∀ x ∈ e, x.isGlobal = false) (k : Nat) :
    ∃ f, Document.ofTokens (ts ++ us.map (·.lower k)) = .ok (d ++ f) ∧
      List.Forall₂ (Block.Like fun t u => u = t.lower k) e f := by
  obtain ⟨last, hahead, hnesting, hwhole⟩ := Document.ofTokens_append hd (us.map (·.lower k))
  -- nothing is passed in front of the second text alone, so that the two cursors are only behind
  -- each other
  have hbehind : Cursor.Behind (fun t u => u = t.lower k) (.ofTokens us) last :=
    ⟨by rw [hahead]; exact forall₂_lower k us, hnesting.symm, [], last.passed, rfl, .nil⟩
  obtain ⟨f, hf, hlike⟩ := (hbehind.blocks (alike_lower k) d.isEmpty).of_ok
    (Cursor.blocks_of_no_global he hg _)
  exact ⟨f, by rw [hwhole, hf]; rfl, hlike⟩

theorem Document.ofTokens_append_global {ts : List Token} {brace : Token} {d : Document}
    (h : Document.ofTokens ts = .ok d) (hd : d ≠ []) (hb : brace.opens = true)
    (rest : List Token) :
    Document.ofTokens (ts ++ brace :: rest) = .error ⟨brace.location, .lateGlobalBlock⟩ := by
  obtain ⟨last, hahead, _, hwhole⟩ := Document.ofTokens_append h (brace :: rest)
  have hfirst : d.isEmpty = false := by simpa using hd
  rw [hwhole, hfirst, Cursor.blocks_of_opens hahead hb]
  rfl

namespace Configuration

theorem ofDocument_append {d e : Document} {c c' : Configuration} (hd : ofDocument d = .ok c)
    (he : ofDocument e = .ok c') (hg : ∀ x ∈ e, x.isGlobal = false) :
    ofDocument (d ++ e) = .ok ⟨c.app, c.directives ++ c'.directives⟩ := by
  have hnone : e.filter Block.isGlobal = [] := by
    rw [List.filter_eq_nil_iff]
    intro x hx
    simp [hg x hx]
  obtain ⟨happ, hdirectives⟩ := ofDocument_eq_ok_iff.mp hd
  obtain ⟨_, hmore⟩ := ofDocument_eq_ok_iff.mp he
  rw [ofDocument_eq_ok_iff, List.filter_append, List.filter_append, hnone, List.append_nil,
    List.flatMap_append, List.mapM_append, hdirectives, hmore]
  exact ⟨happ, rfl⟩

/-- Behind a text that can be loaded, one without a block of global options adds its directives. One
that begins with such a block is refused at that block, unless no block stands before it. -/
theorem ofText_append_newline {source : Source} {a b : String} {c : Configuration}
    {ts us : List Token} {d e : Document} (ha : ofText source a = .ok c)
    (hta : tokenize source a = .ok ts) (hda : Document.ofTokens ts = .ok d)
    (htb : tokenize source b = .ok us) (hdb : Document.ofTokens us = .ok e) :
    (∀ c', ofText source b = .ok c' → (∀ x ∈ e, x.isGlobal = false) →
        ofText source (a ++ "\n" ++ b) = .ok ⟨c.app, c.directives ++ c'.directives⟩) ∧
      ((∃ x ∈ e, x.isGlobal = true) → d ≠ [] →
        ∃ brace ∈ us.head?, brace.opens = true ∧
          ofText source (a ++ "\n" ++ b) =
            .error ⟨⟨source, brace.line + (newlines a.toList + 1)⟩, .lateGlobalBlock⟩) := by
  have ht := tokenize_append_newline hta htb
  generalize hk : newlines a.toList + 1 = k at ht ⊢
  constructor
  · intro c' hb hg
    rw [ofText_eq hta hda] at ha
    rw [ofText_eq htb hdb] at hb
    obtain ⟨f, hf, hlike⟩ := Document.ofTokens_append_lower hda hdb hg k
    obtain ⟨_, hfc, rfl⟩ :=
      (agree_ofDocument (hlike.imp fun _ _ h => h.saysSame (alike_lower k))).of_ok hb
    have hglobal : ∀ y ∈ f, y.isGlobal = false := by
      intro y hy
      obtain ⟨x, hx, hxy⟩ := exists_of_mem_of_forall₂ hlike.flip hy
      exact hxy.isGlobal ▸ hg x hx
    rw [ofText_eq ht hf]
    exact ofDocument_append ha hfc hglobal
  · rintro ⟨x, hx, hglobal⟩ hne
    obtain ⟨brace, hbrace, hopens⟩ := Document.head?_of_isGlobal hdb hx hglobal
    refine ⟨brace, hbrace, hopens, ?_⟩
    obtain ⟨rest, rfl⟩ := List.head?_eq_some_iff.mp hbrace
    have hsource : brace.source = source := source_of_mem_tokenize htb List.mem_cons_self
    have hopens' : (brace.lower k).opens = true := hopens
    have hwhole := Document.ofTokens_append_global hda hne hopens' (rest.map (·.lower k))
    rw [ofText, ht]
    simp only [bind, Except.bind, List.map_cons, hwhole]
    rw [← hsource]
    rfl

theorem ofText_site_newline :
    ofText none ("a \x7b\n  tailscale\n\x7d" ++ "\n" ++ "b \x7b\n  tailscale edge\n\x7d") =
        .ok ⟨∅, [⟨"default", ∅⟩, ⟨"edge", ∅⟩]⟩ ∧
      ofText none ("a \x7b\n  tailscale\n\x7d" ++ "\n" ++ "\x7b\n\x7d") =
        .error ⟨⟨none, 4⟩, .lateGlobalBlock⟩ := by
  have ha : ofText none "a \x7b\n  tailscale\n\x7d" = .ok ⟨∅, [⟨"default", ∅⟩]⟩ := by
    decide +kernel
  have hta : tokenize none "a \x7b\n  tailscale\n\x7d" =
      .ok [⟨none, 1, "a", false⟩, ⟨none, 1, "\x7b", false⟩, ⟨none, 2, "tailscale", false⟩,
        ⟨none, 3, "\x7d", false⟩] := by
    decide +kernel
  have hda : Document.ofTokens [⟨none, 1, "a", false⟩, ⟨none, 1, "\x7b", false⟩,
      ⟨none, 2, "tailscale", false⟩, ⟨none, 3, "\x7d", false⟩] =
      .ok [⟨[⟨none, 1, "a", false⟩], [[⟨none, 2, "tailscale", false⟩]]⟩] := by
    decide +kernel
  have htb : tokenize none "b \x7b\n  tailscale edge\n\x7d" =
      .ok [⟨none, 1, "b", false⟩, ⟨none, 1, "\x7b", false⟩, ⟨none, 2, "tailscale", false⟩,
        ⟨none, 2, "edge", false⟩, ⟨none, 3, "\x7d", false⟩] := by
    decide +kernel
  have hdb : Document.ofTokens [⟨none, 1, "b", false⟩, ⟨none, 1, "\x7b", false⟩,
      ⟨none, 2, "tailscale", false⟩, ⟨none, 2, "edge", false⟩, ⟨none, 3, "\x7d", false⟩] =
      .ok [⟨[⟨none, 1, "b", false⟩],
        [[⟨none, 2, "tailscale", false⟩, ⟨none, 2, "edge", false⟩]]⟩] := by
    decide +kernel
  have hb : ofText none "b \x7b\n  tailscale edge\n\x7d" = .ok ⟨∅, [⟨"edge", ∅⟩]⟩ := by
    decide +kernel
  have htg : tokenize none "\x7b\n\x7d" =
      .ok [⟨none, 1, "\x7b", false⟩, ⟨none, 2, "\x7d", false⟩] := by
    decide +kernel
  have hdg : Document.ofTokens [⟨none, 1, "\x7b", false⟩, ⟨none, 2, "\x7d", false⟩] =
      .ok [⟨[], []⟩] := by
    decide +kernel
  obtain ⟨brace, hbrace, _, hlate⟩ := (ofText_append_newline ha hta hda htg hdg).2
    ⟨⟨[], []⟩, List.mem_cons_self, rfl⟩ (List.cons_ne_nil _ _)
  obtain rfl := Option.some.inj hbrace
  exact ⟨(ofText_append_newline ha hta hda htb hdb).1 _ hb (by decide), hlate⟩

end Configuration

end NodeLayers
