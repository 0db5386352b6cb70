import NodeLayers.Proofs.Given
import NodeLayers.Proofs.OptionText

namespace NodeLayers

def App.Entry.lines : App.Entry → List Line
  | .setting s => [s.words]
  | .node named => blockLines [.quoted named.name] (named.settings.given.map Setting.words)

def App.lines (a : App) : List Line :=
  blockLines [] (blockLines [.bare App.name] (a.entries.flatMap App.Entry.lines))

def Directive.lines (address : String) (d : Directive) : List Line :=
  blockLines [.quoted address]
    (blockLines [.bare Directive.name, .quoted d.nodeName] (d.settings.given.map Setting.words))

/-- A document that says this: the global option, and a site for each directive. -/
def Configuration.lines (address : String) (c : Configuration) : List Line :=
  c.app.lines ++ c.directives.flatMap (Directive.lines address)

/-- A block written with one directive in it, which has a block of its own. -/
theorem laidOut_place {source : Source} {n m : Nat} {header inner : Line} {body : List Line}
    (hm : n + header.height = m) (hheader : ∀ w ∈ header, w.Plain) (hinner : ∀ w ∈ inner, w.Plain)
    (hne : inner ≠ []) (hbody : Whole (place source (m + inner.height) body))
    (hfirst : ∀ t ∈ (place source (m + inner.height) body).head?,
      t.closes = false ∧ t.opens = false) :
    Block.LaidOut
      ⟨header.place source n, [inner.place source m ++
        keptBlock (openAt source (m + inner.newlines)) (place source (m + inner.height) body)
          (closeAt source (m + inner.height + height body))]⟩
      (place source n (blockLines header (blockLines inner body))) := by
  subst hm
  have hkeys := Line.plain_place hheader source n
  have hargs := Line.plain_place hinner source (n + header.height)
  have hkeysLine := Line.oneLine_place source n (header ++ [.bare "\x7b"])
  have hargsLine := Line.oneLine_place source (n + header.height) (inner ++ [.bare "\x7b"])
  have hinnerLine := Line.oneLine_place source (n + header.height) inner
  rw [place_header] at hkeysLine hargsLine
  refine ⟨openAt source (n + header.newlines),
    closeAt source (n + header.height + height (blockLines inner body)),
    [place source (n + header.height) (blockLines inner body)], ?_, fun k hk => (hkeys k hk).2,
    hkeysLine, opens_openAt _ _, closes_closeAt _ _, .cons ?_ .nil, ?_, trivial⟩
  · rw [place_blockLines, List.flatten_singleton]
  · rw [place_blockLines]
    revert hargs hargsLine hinnerLine
    cases hplace : inner.place source (n + header.height) with
    | nil =>
      cases inner with
      | nil => exact absurd rfl hne
      | cons w ws => cases hplace
    | cons t args =>
      intro hargs hargsLine hinnerLine
      obtain ⟨hc, ho⟩ := hargs t List.mem_cons_self
      have htoken : Header t args :=
        ⟨hc, ho, fun a ha => (hargs a (List.mem_cons_of_mem t ha)).2, hinnerLine⟩
      have hspelled := spelled_of_whole htoken hargsLine (opens_openAt _ _)
        (closes_closeAt source (n + header.height + inner.height + height body)) hbody hfirst
      simpa using hspelled
  · refine endsLine_of_lt (fun t ht => (range_place ht).2) fun u hu => ?_
    obtain rfl := Option.some.inj hu
    exact Nat.le_refl _

namespace App

/-- An entry that the global option can have: only nodes have host names and ports, and a node's
name is none of the option's keywords. -/
def Entry.Allowed : Entry → Prop
  | .setting s => ∀ a : App, a.takes s.keyword = true
  | .node named => ∀ a : App, OptionRecord.keyword? a named.name = none

theorem Entry.spelled_place {e : Entry} (h : e.Allowed) (source : Source) (n : Nat) :
    e.Spelled (place source n e.lines) := by
  cases e with
  | setting s =>
    have hline : place source n [s.words] = s.words.place source n := List.append_nil _
    rw [Entry.lines, hline]
    exact .setting (s.onLine_place source n) h
  | node named =>
    obtain ⟨name, settings⟩ := named
    have hblock := optionBlock_place settings.given
      (opens_openAt source (n + Line.newlines [.quoted name])) source
      (n + Line.height [.quoted name])
    have hline : Token.sharesLine ⟨source, n, name, true⟩
        (openAt source (n + Line.newlines [.quoted name])) = true :=
      oneLine_pair.mp (Line.oneLine_place source n [.quoted name, .bare "\x7b"])
    have hplain := Word.plain_token (w := .quoted name) trivial source n
    have hspelled := Entry.Spelled.node hplain.1 hplain.2 hline h hblock
    rw [flatten_placeGroups, flatten_words, settings.foldl_given, List.cons_append] at hspelled
    rw [Entry.lines, place_blockLines]
    exact hspelled

theorem entries_place {entries : List Entry} (h : ∀ e ∈ entries, e.Allowed) (source : Source)
    (n : Nat) :
    List.Forall₂ Entry.Spelled entries (placeGroups source n (entries.map Entry.lines)) := by
  induction entries generalizing n with
  | nil => exact .nil
  | cons e entries ih =>
    exact .cons (Entry.spelled_place (h e List.mem_cons_self) source n)
      (ih (fun f hf => h f (List.mem_cons_of_mem e hf)) _)

theorem allowed_entries {a : App}
    (hn : ∀ e ∈ a.nodes.entries, e.2.name = e.1 ∧
      e.1 ∉ ["auth_key", "control_url", "ephemeral", "state_dir", "webui", "tags"]) :
    ∀ e ∈ a.entries, e.Allowed := by
  intro e he
  rcases List.mem_append.mp he with hs | hm
  · obtain ⟨s, hgiven, rfl⟩ := List.mem_map.mp hs
    exact takes_given hgiven
  · obtain ⟨node, hnode, rfl⟩ := List.mem_map.mp hm
    obtain ⟨entry, hentry, rfl⟩ := List.mem_map.mp hnode
    obtain ⟨hname, hkey⟩ := hn entry hentry
    rw [← hname] at hkey
    exact keyword?_eq_none hkey

theorem word_name : (Word.bare App.name).Proper ∧ (Word.bare App.name).Plain :=
  ⟨Word.proper_bare (by decide +kernel), by decide, by decide⟩

/-- The written global option is a block of its own, and it is read back. -/
theorem laidOut_place {a : App} (hn : ∀ e ∈ a.nodes.entries, e.2.name = e.1)
    (ha : ∀ e ∈ a.entries, e.Allowed) (source : Source) (n : Nat) :
    ∃ s : Segment, Block.LaidOut ⟨[], [s]⟩ (place source n a.lines) ∧ s.isNamed App.name = true ∧
      (App.read (.ofTokens s)).1 = .ok a := by
  generalize hm : n + Line.height [] = m
  generalize hk : m + Line.height [.bare App.name] = k
  have hentries := entries_place ha source k
  have hbody : place source k (a.entries.flatMap Entry.lines) =
      (placeGroups source k (a.entries.map Entry.lines)).flatten := by
    rw [flatten_placeGroups, List.flatMap_def]
  have hplain : ∀ w ∈ [Word.bare App.name], w.Plain := by
    intro w hw
    obtain rfl := List.mem_singleton.mp hw
    exact word_name.2
  have hlaid : Laid (placeGroups source k (a.entries.map Entry.lines))
      [closeAt source (k + height (a.entries.flatMap Entry.lines))] := by
    refine laid_placeGroups fun u hu => ?_
    obtain rfl := Option.some.inj hu
    rw [← List.flatMap_def]
    exact Nat.le_refl _
  have hline : Token.sharesLine ⟨source, m, App.name, false⟩
      (openAt source (m + Line.newlines [.bare App.name])) = true :=
    oneLine_pair.mp (Line.oneLine_place source m [.bare App.name, .bare "\x7b"])
  have hname : Line.place source m [.bare App.name] = [⟨source, m, App.name, false⟩] := rfl
  have hread := read_of_entries hentries hlaid hline (opens_openAt _ _) (closes_closeAt _ _)
  rw [← hbody, a.foldl_entries hn] at hread
  refine ⟨_, NodeLayers.laidOut_place hm (by simp) hplain (by simp) ?_ ?_, ?_, ?_⟩
  · rw [hk, hbody]
    exact whole_entries hentries
  · rw [hk, hbody]
    exact head?_entries hentries
  · rfl
  · rw [hk, hname, List.singleton_append]
    exact hread

end App

theorem Directive.word_name :
    (Word.bare Directive.name).Proper ∧ (Word.bare Directive.name).Plain :=
  ⟨Word.proper_bare (by decide +kernel), by decide, by decide⟩

theorem Directive.laidOut_place {d : Directive} (hd : d.nodeName ≠ "") (address : String)
    (source : Source) (n : Nat) :
    ∃ b : Block, b.LaidOut (place source n (d.lines address)) ∧ b.isGlobal = false ∧
      ∃ s, b.named Directive.name = [s] ∧ (Directive.read ∅ (.ofTokens s)).1 = .ok d := by
  generalize hm : n + Line.height [.quoted address] = m
  generalize hk : m + Line.height [.bare Directive.name, .quoted d.nodeName] = k
  have hblock := optionBlock_place d.settings.given
    (opens_openAt source (m + Line.newlines [.bare Directive.name, .quoted d.nodeName])) source k
  have hbody : place source k (d.settings.given.map Setting.words) =
      (placeGroups source k (d.settings.given.map fun s => [s.words])).flatten := by
    rw [flatten_placeGroups, flatten_words]
  have hheader : ∀ w ∈ [Word.quoted address], w.Plain := by
    intro w hw
    obtain rfl := List.mem_singleton.mp hw
    trivial
  have hplain : ∀ w ∈ [Word.bare Directive.name, Word.quoted d.nodeName], w.Plain := by
    intro w hw
    rcases List.mem_cons.mp hw with rfl | hw
    · exact word_name.2
    · obtain rfl := List.mem_singleton.mp hw
      trivial
  have hline := Line.oneLine_place source m
    ([.bare Directive.name, .quoted d.nodeName] ++ [.bare "\x7b"])
  rw [place_header] at hline
  have hname : Line.place source m [.bare Directive.name, .quoted d.nodeName] =
      [⟨source, m, Directive.name, false⟩,
        ⟨source, m + Word.newlines (.bare Directive.name), d.nodeName, true⟩] := rfl
  rw [hname] at hline
  have hplain' := Word.plain_token word_name.2 source m
  have header : Header ⟨source, m, Directive.name, false⟩
      [⟨source, m + Word.newlines (.bare Directive.name), d.nodeName, true⟩] :=
    ⟨hplain'.1, hplain'.2, by simp [Token.opens], oneLine_pair.mpr (oneLine_cons_cons.mp hline).1⟩
  have hread := Directive.read_of_options hblock header hline hd
  rw [← hbody, d.settings.foldl_given] at hread
  refine ⟨_, NodeLayers.laidOut_place hm hheader hplain (by simp) ?_ ?_, rfl, _, rfl, ?_⟩
  · rw [hk, hbody]
    exact whole_of_plain hblock.plain
  · rw [hk, hbody]
    exact fun t ht => hblock.plain t (List.mem_of_mem_head? ht)
  · rw [hk, hname, List.cons_append, List.singleton_append]
    exact hread

theorem Directive.blocks_place {directives : List Directive}
    (h : ∀ d ∈ directives, d.nodeName ≠ "") (address : String) (source : Source) (n : Nat) :
    ∃ bs : Document,
      List.Forall₂ Block.LaidOut bs (placeGroups source n (directives.map (lines address))) ∧
        (∀ b ∈ bs, b.isGlobal = false) ∧
        (bs.flatMap (·.named Directive.name)).mapM
          (fun s => (Directive.read ∅ (.ofTokens s)).1) = .ok directives := by
  induction directives generalizing n with
  | nil => exact ⟨[], .nil, by simp, rfl⟩
  | cons d directives ih =>
    obtain ⟨b, hb, hglobal, s, hs, hread⟩ :=
      laidOut_place (h d List.mem_cons_self) address source n
    obtain ⟨bs, hbs, hglobals, hreads⟩ :=
      ih (fun e he => h e (List.mem_cons_of_mem d he)) (n + height (d.lines address))
    refine ⟨b :: bs, .cons hb hbs, ?_, ?_⟩
    · intro c hc
      rcases List.mem_cons.mp hc with rfl | hc
      · exact hglobal
      · exact hglobals c hc
    · rw [List.flatMap_cons, hs, List.cons_append, List.nil_append, List.mapM_cons, hread, hreads]
      rfl

theorem proper_blockLines {header : Line} {body : List Line} (hheader : ∀ w ∈ header, w.Proper)
    (hbody : ∀ ws ∈ body, ∀ w ∈ ws, w.Proper) :
    ∀ ws ∈ blockLines header body, ∀ w ∈ ws, w.Proper := by
  have hopen : (Word.bare "\x7b").Proper := Word.proper_bare (by decide +kernel)
  have hclose : (Word.bare "\x7d").Proper := Word.proper_bare (by decide +kernel)
  intro ws hws w hw
  rw [blockLines, List.cons_append] at hws
  rcases List.mem_cons.mp hws with rfl | hws
  · rcases List.mem_append.mp hw with hw | hw
    · exact hheader w hw
    · obtain rfl := List.mem_singleton.mp hw
      exact hopen
  · rcases List.mem_append.mp hws with hws | hws
    · exact hbody ws hws w hw
    · obtain rfl := List.mem_singleton.mp hws
      obtain rfl := List.mem_singleton.mp hw
      exact hclose

theorem proper_settings (settings : List Setting) :
    ∀ ws ∈ settings.map Setting.words, ∀ w ∈ ws, w.Proper := by
  intro ws hws w hw
  obtain ⟨s, _, rfl⟩ := List.mem_map.mp hws
  exact (Setting.word_words hw).1

namespace Configuration

def text (address : String) (c : Configuration) : String :=
  written (c.lines address)

theorem proper_lines (address : String) (c : Configuration) :
    ∀ ws ∈ c.lines address, ∀ w ∈ ws, w.Proper := by
  have hquoted : ∀ v, ∀ w ∈ [Word.quoted v], w.Proper := by
    intro v w hw
    obtain rfl := List.mem_singleton.mp hw
    exact Word.proper_quoted v
  have hname : ∀ w ∈ [Word.bare App.name], w.Proper := by
    intro w hw
    obtain rfl := List.mem_singleton.mp hw
    exact App.word_name.1
  intro ws hws
  rcases List.mem_append.mp hws with happ | hsites
  · refine proper_blockLines (by simp) (proper_blockLines hname fun vs hvs => ?_) ws happ
    obtain ⟨e, _, he⟩ := List.mem_flatMap.mp hvs
    cases e with
    | setting s =>
      obtain rfl := List.mem_singleton.mp he
      exact fun w hw => (Setting.word_words hw).1
    | node named => exact proper_blockLines (hquoted named.name) (proper_settings _) vs he
  · obtain ⟨d, _, hd⟩ := List.mem_flatMap.mp hsites
    refine proper_blockLines (hquoted address) (proper_blockLines ?_ (proper_settings _)) ws hd
    intro w hw
    rcases List.mem_cons.mp hw with rfl | hw
    · exact Directive.word_name.1
    · exact hquoted d.nodeName w hw

theorem ofDocument_global_cons {b : Block} {bs : Document} {c : Configuration}
    (hb : b.isGlobal = true) (hbs : ∀ x ∈ bs, x.isGlobal = false)
    (happ : readApp (b.named App.name) = .ok c.app)
    (hdirectives : (bs.flatMap (·.named Directive.name)).mapM
      (fun s => (Directive.read ∅ (.ofTokens s)).1) = .ok c.directives) :
    ofDocument (b :: bs) = .ok c := by
  have hglobal : (b :: bs).filter Block.isGlobal = [b] := by
    rw [List.filter_cons_of_pos hb, List.filter_eq_nil_iff.mpr]
    intro x hx
    simp [hbs x hx]
  have hsites : (b :: bs).filter (!·.isGlobal) = bs := by
    rw [List.filter_cons_of_neg (by simp [hb]), List.filter_eq_self]
    intro x hx
    simp [hbs x hx]
  rw [ofDocument_eq_ok_iff, hglobal, hsites, List.flatMap_singleton]
  exact ⟨happ, hdirectives⟩

/-- What is written of a configuration is read back as it was, whatever its texts are: only the
names of its nodes must differ from the keywords that can stand in their places. -/
theorem ofText_text {c : Configuration}
    (hn : ∀ e ∈ c.app.nodes.entries, e.2.name = e.1 ∧
      e.1 ∉ ["auth_key", "control_url", "ephemeral", "state_dir", "webui", "tags"])
    (hd : ∀ d ∈ c.directives, d.nodeName ≠ "") (address : String) (source : Source) :
    ofText source (c.text address) = .ok c := by
  obtain ⟨s, hs, hnamed, happ⟩ :=
    App.laidOut_place (fun e he => (hn e he).1) (App.allowed_entries hn) source 1
  obtain ⟨bs, hbs, hglobals, hreads⟩ :=
    Directive.blocks_place hd address source (1 + height c.app.lines)
  have htokens : place source 1 (c.lines address) =
      (placeGroups source 1
        (c.app.lines :: c.directives.map (Directive.lines address))).flatten := by
    rw [flatten_placeGroups, lines, List.flatMap_def]
    rfl
  have hdocument : Document.ofTokens (place source 1 (c.lines address)) =
      .ok (⟨[], [s]⟩ :: bs) := by
    rw [htokens]
    exact Document.ofTokens_of_laidOut (.cons hs hbs) hglobals
  have hoption : Block.named ⟨[], [s]⟩ App.name = [s] := by simp [Block.named, hnamed]
  rw [text, ofText_eq (tokenize_written (c.proper_lines address) source) hdocument]
  refine ofDocument_global_cons rfl hglobals ?_ hreads
  rw [hoption]
  exact happ

/-- Texts with line ends, quotes and braces in them, a node called like a brace and another that is
not called at all. -/
def oddTexts : Configuration where
  app :=
    { authKey := "#\n\"\\", controlUrl := "", ephemeral := true, stateDir := "\x7d", webui := false,
      tags := ["", "tags", "a b"],
      nodes := ⟨[("\x7b", ⟨"\x7b", { (∅ : Settings) with ephemeral := some false, port := 65535 }⟩),
        ("", ⟨"", ∅⟩)], by decide⟩ }
  directives :=
    [⟨"\n\n", ∅⟩, ⟨"webui", { (∅ : Settings) with hostname := "\x60", tags := ["\x7b", "\\"] }⟩]

theorem ofText_oddTexts : ofText none (oddTexts.text "a\nb") = .ok oddTexts :=
  ofText_text (by decide) (by decide) "a\nb" none

end Configuration

end NodeLayers
