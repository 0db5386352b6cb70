import NodeLayers.Proofs.Entries
import NodeLayers.Proofs.OptionFault

namespace NodeLayers

namespace App

/-- The token names a node, the options of which are these up to an end or a fault. -/
structure OpensNode (a : App) (t : Token) (d : Cursor) (settings : List Setting)
    (o : Option ParseError) : Prop where
  name : LacksOption a t
  opens : d.opensBlock = true
  read : ∃ block, d.segment.1 = t :: block ∧
    OptionsRead (∅ : Settings) ⟨[t], block, 0⟩ settings o

/-- At the next stop stands an option of the record, or a node with a block that can be read. -/
inductive GivesEntry (a : App) (c : Cursor) : Entry → Cursor → Prop
  | option {s d} : c.GivesOption a s d → GivesEntry a c (.setting s) d
  | node {t d settings} : c.StopsAt t d → a.OpensNode t d settings none →
      GivesEntry a c (.node ⟨t.text, settings.foldl Settings.set ∅⟩) d.segment.2

/-- What can be wrong where an entry is expected. -/
inductive EntryFault (a : App) (t : Token) (d : Cursor) : ParseError → Prop
  | argument {k e} : k.text = t.text → a.takes k = true → ArgumentFault k t d.ahead e →
      EntryFault a t d e
  | noBlock : LacksOption a t → d.opensBlock = false →
      EntryFault a t d ⟨t.location, .missingArgument t.text⟩
  | inBlock {settings e} : a.OpensNode t d settings (some e) → EntryFault a t d e

abbrev GivesEntries (a : App) (c : Cursor) (entries : List Entry) (d : Cursor) : Prop :=
  Gives GivesEntry put a c entries d

section

variable {a b : App} {t : Token} {c d f : Cursor} {e : ParseError} {x : Entry}
  {settings : List Setting} {entries : List Entry} {o : Option ParseError}

theorem OpensNode.read_eq (h : a.OpensNode t d settings o) (hd : d.current? = some t) :
    Node.read d =
      (match o with
        | none => .ok ⟨t.text, settings.foldl Settings.set ∅⟩
        | some e => .error e, d.segment.2) := by
  obtain ⟨block, hs, hread⟩ := h.read
  obtain ⟨f, hf⟩ := hread.readOptions_eq
  rw [Node.read_eq hd h.opens hs, hf]
  cases o <;> rfl

theorem readEntry_of_lacksOption (h : LacksOption a t) (hd : d.current? = some t) :
    a.readEntry d = (Node.read d).map (·.map a.putNode) id := by
  rw [readEntry, Cursor.text_of_current? hd, keyword?_eq_none_iff.mpr h]

theorem exists_opensNode (h : LacksOption a t) (hd : d.current? = some t)
    (hb : d.opensBlock = true) : ∃ settings o, a.OpensNode t d settings o := by
  obtain ⟨block, hs⟩ := Cursor.exists_segment_eq hd
  obtain ⟨settings, hread, _⟩ := exists_optionsRead (∅ : Settings) ⟨[t], block, 0⟩
  exact ⟨settings, _, h, hb, block, hs, hread⟩

theorem GivesEntry.readBlock_eq (h : a.GivesEntry c x d) :
    a.readBlock c = (a.put x).readBlock d := by
  cases h with
  | option hgive =>
    obtain ⟨f, k, hnext, hk, hs⟩ := Cursor.givesOption_iff.mp hgive
    refine readBlock_of_ok hnext ?_
    rw [readEntry, hk]
    simp only [hs]
    rfl
  | node hstop hnode =>
    refine readBlock_of_ok hstop.next ?_
    rw [readEntry_of_lacksOption hnode.name hstop.current, hnode.read_eq hstop.current]
    rfl

theorem entryFault_iff (h : d.current? = some t) :
    a.EntryFault t d e ↔ ∃ f, a.readEntry d = (.error e, f) := by
  have htext := Cursor.text_of_current? h
  constructor
  · intro hf
    cases hf with
    | @argument k e hname hk harg =>
      obtain ⟨f, hs⟩ := (Cursor.setting_eq_error_iff h).mpr harg
      refine ⟨f, ?_⟩
      rw [readEntry, htext, keyword?_eq_some_iff.mpr ⟨hname, hk⟩]
      simp only [hs]
      rfl
    | noBlock hname hb =>
      refine ⟨d, ?_⟩
      rw [readEntry_of_lacksOption hname h, Node.read, hb, Cursor.missingArgument_eq h]
      rfl
    | inBlock hnode =>
      refine ⟨d.segment.2, ?_⟩
      rw [readEntry_of_lacksOption hnode.name h, hnode.read_eq h]
      rfl
  · rintro ⟨f, hf⟩
    cases hk : OptionRecord.keyword? a t.text with
    | some k =>
      obtain ⟨hname, htakes⟩ := keyword?_eq_some_iff.mp hk
      rw [readEntry, htext, hk] at hf
      exact .argument hname htakes
        ((Cursor.setting_eq_error_iff h).mp ⟨f, Cursor.map_eq_error_iff.mp hf⟩)
    | none =>
      have hname := keyword?_eq_none_iff.mp hk
      rw [readEntry_of_lacksOption hname h, Cursor.map_eq_error_iff] at hf
      cases hb : d.opensBlock with
      | false =>
        rw [Node.read, hb, Cursor.missingArgument_eq h] at hf
        obtain rfl := Except.error.inj (congrArg Prod.fst hf)
        exact .noBlock hname hb
      | true =>
        obtain ⟨settings, o, hnode⟩ := exists_opensNode hname h hb
        rw [hnode.read_eq h] at hf
        cases o with
        | none => cases hf
        | some e' =>
          cases hf
          exact .inBlock hnode

theorem EntryFault.unique {e' : ParseError} (h : a.EntryFault t d e) (hd : d.current? = some t)
    (h' : a.EntryFault t d e') : e = e' := by
  obtain ⟨f, hf⟩ := (entryFault_iff hd).mp h
  obtain ⟨g, hg⟩ := (entryFault_iff hd).mp h'
  cases hf.symm.trans hg
  rfl

/-- The block of the node at this token cannot be read, because of what stands at one of its
tokens. -/
def FailsInside (a : App) (t : Token) (d : Cursor) (P : Settings → Token → List Token → Prop) :
    Prop :=
  LacksOption a t ∧ d.opensBlock = true ∧ ∃ block settings f u g, d.segment.1 = t :: block ∧
    GivesOptions (∅ : Settings) ⟨[t], block, 0⟩ settings f ∧ f.StopsAt u g ∧
    P (settings.foldl Settings.set ∅) u g.ahead

theorem EntryFault.failsInside_iff {K : ParseError → Prop}
    {P : Settings → Token → List Token → Prop} (h : a.EntryFault t d e) (hd : d.current? = some t)
    (hkind : ∀ {record u us e'}, OptionFault record u us e' → (K e' ↔ P record u us))
    (hfault : ∀ {record u us}, P record u us → ∃ e', OptionFault record u us e') :
    a.FailsInside t d P ↔ K e ∧ ∃ settings, a.OpensNode t d settings (some e) := by
  constructor
  · rintro ⟨hname, hb, block, settings, f, u, g, hs, hgives, hstop, hP⟩
    obtain ⟨e', he'⟩ := hfault hP
    have hnode : a.OpensNode t d settings (some e') :=
      ⟨hname, hb, block, hs, f, hgives, .fault hstop he'⟩
    -- an entry has one fault only, so that the one found in the block is the one given
    obtain rfl := h.unique hd (.inBlock hnode)
    exact ⟨(hkind he').mpr hP, settings, hnode⟩
  · rintro ⟨hK, settings, hname, hb, block, hs, f, hgives, hstop⟩
    cases hstop with
    | @fault u g e hstop hfault =>
      exact ⟨hname, hb, block, settings, f, u, g, hs, hgives, hstop, (hkind hfault).mp hK⟩

theorem EntryFault.cases (h : a.EntryFault t d e) :
    (∃ k : Keyword, k.text = t.text ∧ a.takes k = true ∧ OptionFault a t d.ahead e) ∨
      (LacksOption a t ∧ d.opensBlock = false ∧ e.IsMissing) ∨
        ∃ settings, a.OpensNode t d settings (some e) := by
  cases h with
  | @argument k e hname hk harg => exact Or.inl ⟨k, hname, hk, .argument hname hk harg⟩
  | noBlock hname hb => exact Or.inr (Or.inl ⟨hname, hb, _, rfl⟩)
  | @inBlock settings e hnode => exact Or.inr (Or.inr ⟨settings, hnode⟩)

theorem EntryFault.isUnknown_iff (h : a.EntryFault t d e) (hd : d.current? = some t) :
    e.IsUnknown ↔ a.FailsInside t d fun record u _ => LacksOption record u := by
  rw [h.failsInside_iff hd (fun hf => hf.isUnknown_iff) fun hlacks => ⟨_, .unknown hlacks⟩]
  refine ⟨fun hkind => ⟨hkind, ?_⟩, And.left⟩
  rcases h.cases with ⟨k, hname, hk, hfault⟩ | ⟨_, _, token, htoken⟩ | hnode
  · exact absurd hname (hfault.isUnknown_iff.mp hkind k hk)
  · obtain ⟨name, hunknown⟩ := hkind
    cases htoken.symm.trans hunknown
  · exact hnode

theorem EntryFault.isMissing_iff (h : a.EntryFault t d e) (hd : d.current? = some t) :
    e.IsMissing ↔ LacksArgument a t d.ahead ∨ (LacksOption a t ∧ d.opensBlock = false) ∨
      a.FailsInside t d LacksArgument := by
  rw [h.failsInside_iff hd (fun hf => hf.isMissing_iff) fun hlacks => ⟨_, hlacks.optionFault⟩]
  constructor
  · intro hkind
    rcases h.cases with ⟨k, hname, hk, hfault⟩ | ⟨hname, hb, _⟩ | hnode
    · exact Or.inl (hfault.isMissing_iff.mp hkind)
    · exact Or.inr (Or.inl ⟨hname, hb⟩)
    · exact Or.inr (Or.inr ⟨hkind, hnode⟩)
  · rintro (hlacks | ⟨hname, hb⟩ | ⟨hkind, _⟩)
    · obtain ⟨k, hname, hk, hneeds, hnone⟩ := hlacks
      rw [h.unique hd (.argument hname hk (.missing hneeds hnone))]
      exact ⟨_, rfl⟩
    · rw [h.unique hd (.noBlock hname hb)]
      exact ⟨_, rfl⟩
    · exact hkind

theorem EntryFault.isInvalid_iff (h : a.EntryFault t d e) (hd : d.current? = some t) :
    e.IsInvalid ↔ HasBadValue a t d.ahead ∨ a.FailsInside t d HasBadValue := by
  rw [h.failsInside_iff hd (fun hf => hf.isInvalid_iff) fun hbad =>
    let ⟨_, _, hfault⟩ := hbad.optionFault; ⟨_, hfault⟩]
  constructor
  · intro hkind
    rcases h.cases with ⟨k, hname, hk, hfault⟩ | ⟨_, _, token, htoken⟩ | hnode
    · exact Or.inl (hfault.isInvalid_iff.mp hkind)
    · obtain ⟨token', reason, hinvalid⟩ := hkind
      cases htoken.symm.trans hinvalid
    · exact Or.inr ⟨hkind, hnode⟩
  · rintro (⟨k, u, reason, hname, hk, hu, hrefuses⟩ | ⟨hkind, _⟩)
    · rw [h.unique hd (.argument hname hk (.invalid hu hrefuses))]
      exact ⟨_, _, rfl⟩
    · exact hkind

theorem exists_givesEntry (hnext : c.nextInBlock 0 = (true, d)) (hs : a.readEntry d = (.ok b, f)) :
    ∃ x, a.GivesEntry c x f ∧ b = a.put x := by
  obtain ⟨t, hstop⟩ := Cursor.exists_stopsAt hnext
  cases hk : OptionRecord.keyword? a t.text with
  | some k =>
    have htext := Cursor.text_of_current? hstop.current
    rw [readEntry, htext, hk] at hs
    cases hset : d.setting k with
    | mk result g =>
      simp only [hset] at hs
      cases result with
      | error e => cases hs
      | ok s =>
        cases hs
        have hgive := Cursor.givesOption_iff.mpr ⟨d, k, hnext, by rw [htext]; exact hk, hset⟩
        exact ⟨.setting s, .option hgive, rfl⟩
  | none =>
    have hname := keyword?_eq_none_iff.mp hk
    rw [readEntry_of_lacksOption hname hstop.current] at hs
    cases hb : d.opensBlock with
    | false =>
      rw [Node.read, hb] at hs
      cases hs
    | true =>
      obtain ⟨settings, o, hnode⟩ := exists_opensNode hname hstop.current hb
      rw [hnode.read_eq hstop.current] at hs
      cases o with
      | some e => cases hs
      | none =>
        cases hs
        exact ⟨_, .node hstop hnode, rfl⟩

/-- The entries end here, or with a fault. -/
inductive EntriesStop (a : App) (c : Cursor) : Option ParseError → Prop
  | done {d : Cursor} : c.nextInBlock 0 = (false, d) → EntriesStop a c none
  | fault {t : Token} {d : Cursor} {e : ParseError} : c.StopsAt t d → a.EntryFault t d e →
      EntriesStop a c (some e)

theorem EntriesStop.readBlock_eq (h : a.EntriesStop c o) : ∃ f, a.readBlock c = ⟨a, f, o⟩ := by
  cases h with
  | @done d hend => exact ⟨d, readBlock_of_false hend⟩
  | @fault t d e hstop hfault =>
    obtain ⟨f, hf⟩ := (entryFault_iff hstop.current).mp hfault
    exact ⟨f, readBlock_of_error hstop.next hf⟩

theorem exists_entries (a : App) (c : Cursor) :
    ∃ entries d, a.GivesEntries c entries d ∧
      (entries.foldl put a).EntriesStop d (a.readBlock c).failure ∧
      (a.readBlock c).record = entries.foldl put a := by
  fun_induction readBlock a c with
  | case1 a c d h => exact ⟨[], c, .nil a c, .done h, rfl⟩
  | case2 a c d h e f hs =>
    obtain ⟨t, hstop⟩ := Cursor.exists_stopsAt h
    have hfault := (entryFault_iff hstop.current).mpr ⟨f, hs⟩
    exact ⟨[], c, .nil a c, .fault hstop hfault, rfl⟩
  | case3 a c d h b f hs _ ih =>
    obtain ⟨x, hgive, rfl⟩ := exists_givesEntry h hs
    obtain ⟨entries, g, hgives, hstop, hrecord⟩ := ih
    exact ⟨x :: entries, g, .cons hgive hgives, hstop, hrecord⟩

end

end App

/-- A record that could not be filled is what the options before the fault made of it, and what is
wrong is one of the faults that an option can have. It is the same for a global option, where an
entry can be a named block too: a block that could not be read leaves no node, and under its name
stands what stood there before. -/
theorem failure_iff {τ : Type} [OptionRecord τ] (c : Cursor) (e : ParseError) :
    (∀ record final : τ, (∃ f, readOptions record c = ⟨final, f, some e⟩) ↔
      ∃ settings d t f, GivesOptions record c settings d ∧ d.StopsAt t f ∧
        OptionFault final t f.ahead e ∧ final = settings.foldl OptionRecord.set record) ∧
      (∀ a b : App, (∃ f, a.readBlock c = ⟨b, f, some e⟩) ↔
        ∃ entries d t f, a.GivesEntries c entries d ∧ d.StopsAt t f ∧ b.EntryFault t f e ∧
          b = entries.foldl App.put a ∧ ∀ n, b.nodes.get? n =
            ((entries.filterMap App.Entry.node?).findRev? fun v => v.name == n).or
              (a.nodes.get? n)) ∧
      (∀ (record : τ) (t : Token) (ahead : List Token), OptionFault record t ahead e →
        (e.IsUnknown ↔ LacksOption record t) ∧ (e.IsMissing ↔ LacksArgument record t ahead) ∧
          (e.IsInvalid ↔ HasBadValue record t ahead)) ∧
      ∀ (a : App) (t : Token) (d : Cursor), c.StopsAt t d → a.EntryFault t d e →
        (e.IsUnknown ↔ a.FailsInside t d fun record u _ => LacksOption record u) ∧
          (e.IsMissing ↔ LacksArgument a t d.ahead ∨ (LacksOption a t ∧ d.opensBlock = false) ∨
            a.FailsInside t d LacksArgument) ∧
          (e.IsInvalid ↔ HasBadValue a t d.ahead ∨ a.FailsInside t d HasBadValue) := by
  refine ⟨fun record final => ⟨?_, ?_⟩, fun a b => ⟨?_, ?_⟩, fun record t ahead hfault => ?_,
    fun a t d hstop hfault => ?_⟩
  · rintro ⟨f, h⟩
    obtain ⟨settings, ⟨d, hgives, hstop⟩, hrecord⟩ := exists_optionsRead record c
    rw [h] at hstop hrecord
    cases hstop with
    | @fault t g e hstop hfault =>
      rw [← hrecord] at hfault
      exact ⟨settings, d, t, g, hgives, hstop, hfault, hrecord⟩
  · rintro ⟨settings, d, t, f, hgives, hstop, hfault, rfl⟩
    exact OptionsRead.readOptions_eq ⟨d, hgives, .fault hstop hfault⟩
  · rintro ⟨f, h⟩
    obtain ⟨entries, d, hgives, hstop, hrecord⟩ := App.exists_entries a c
    rw [h] at hstop hrecord
    cases hstop with
    | @fault t g e hstop hfault =>
      rw [← hrecord] at hfault
      have hfinal : b = entries.foldl App.put a := hrecord
      refine ⟨entries, d, t, g, hgives, hstop, hfault, hfinal, fun n => ?_⟩
      rw [hfinal]
      exact App.get?_foldl_put entries a n
  · rintro ⟨entries, d, t, f, hgives, hstop, hfault, rfl, _⟩
    rw [hgives.run fun _ _ _ _ => App.GivesEntry.readBlock_eq]
    exact App.EntriesStop.readBlock_eq (.fault hstop hfault)
  · exact ⟨hfault.isUnknown_iff, hfault.isMissing_iff, hfault.isInvalid_iff⟩
  · exact ⟨hfault.isUnknown_iff hstop.current, hfault.isMissing_iff hstop.current,
      hfault.isInvalid_iff hstop.current⟩

/-- A block of options with `hostname h1` on its second line and `webui maybe` on its third. -/
def maybeBlock : Cursor :=
  ⟨[⟨none, 1, "tailscale", false⟩], [⟨none, 1, "\x7b", false⟩,
    ⟨none, 2, "hostname", false⟩, ⟨none, 2, "h1", false⟩,
    ⟨none, 3, "webui", false⟩, ⟨none, 3, "maybe", false⟩, ⟨none, 4, "\x7d", false⟩], 0⟩

/-- A global option with two blocks for one node, the second of which has an unknown option behind
its `hostname`. -/
def colourBlock : Cursor :=
  ⟨[⟨none, 1, "tailscale", false⟩], [⟨none, 1, "\x7b", false⟩,
    ⟨none, 2, "edge", false⟩, ⟨none, 2, "\x7b", false⟩,
    ⟨none, 3, "hostname", false⟩, ⟨none, 3, "h1", false⟩, ⟨none, 4, "\x7d", false⟩,
    ⟨none, 5, "edge", false⟩, ⟨none, 5, "\x7b", false⟩,
    ⟨none, 6, "hostname", false⟩, ⟨none, 6, "h2", false⟩,
    ⟨none, 7, "colour", false⟩, ⟨none, 7, "red", false⟩, ⟨none, 8, "\x7d", false⟩,
    ⟨none, 9, "\x7d", false⟩], 0⟩

theorem failed_option_blocks :
    (∃ f, readOptions (∅ : Settings) maybeBlock =
        ⟨{ (∅ : Settings) with hostname := "h1" }, f,
          some ⟨⟨none, 3⟩, .invalidValue "maybe" .notBoolean⟩⟩) ∧
      HasBadValue { (∅ : Settings) with hostname := "h1" } ⟨none, 3, "webui", false⟩
        [⟨none, 3, "maybe", false⟩, ⟨none, 4, "\x7d", false⟩] ∧
      ∃ entries d t f, (∅ : App).GivesEntries colourBlock entries d ∧ d.StopsAt t f ∧
        ((entries.filterMap App.Entry.node?).findRev? fun v => v.name == "edge") =
          some ⟨"edge", { (∅ : Settings) with hostname := "h1" }⟩ ∧
        (entries.foldl App.put ∅).FailsInside t f fun record u _ => LacksOption record u := by
  have hgives : GivesOptions (∅ : Settings) maybeBlock [.hostname "h1"] _ :=
    .cons (Cursor.givesOption_iff.mpr ⟨_, .hostname, rfl, by decide, rfl⟩) (.nil _ _)
  have hmaybe : OptionFault { (∅ : Settings) with hostname := "h1" } ⟨none, 3, "webui", false⟩
      [⟨none, 3, "maybe", false⟩, ⟨none, 4, "\x7d", false⟩]
      ⟨⟨none, 3⟩, .invalidValue "maybe" .notBoolean⟩ :=
    .argument (k := .webui) rfl rfl (.invalid (a := ⟨none, 3, "maybe", false⟩) rfl ⟨by decide, rfl⟩)
  obtain ⟨hoptions, _, hkind, _⟩ :=
    failure_iff (τ := Settings) maybeBlock ⟨⟨none, 3⟩, .invalidValue "maybe" .notBoolean⟩
  refine ⟨(hoptions ∅ _).mpr ⟨_, _, _, _, hgives, ⟨rfl, rfl⟩, hmaybe, rfl⟩,
    (hkind _ _ _ hmaybe).2.2.mp ⟨_, _, rfl⟩, ?_⟩
  have hfailure : ((∅ : App).readBlock colourBlock).failure =
      some ⟨⟨none, 7⟩, .unknownOption "colour"⟩ := by
    decide +kernel
  have hedge : ((∅ : App).readBlock colourBlock).record.nodes.get? "edge" =
      some ⟨"edge", { (∅ : Settings) with hostname := "h1" }⟩ := by
    decide +kernel
  obtain ⟨_, hentries, _⟩ :=
    failure_iff (τ := Settings) colourBlock ⟨⟨none, 7⟩, .unknownOption "colour"⟩
  obtain ⟨entries, d, t, f, hgives, hstop, hfault, hrecord, hnodes⟩ :=
    (hentries ∅ ((∅ : App).readBlock colourBlock).record).mp ⟨_, by rw [← hfailure]⟩
  obtain ⟨_, _, _, hinside⟩ :=
    failure_iff (τ := Settings) d ⟨⟨none, 7⟩, .unknownOption "colour"⟩
  refine ⟨entries, d, t, f, hgives, hstop, ?_, ?_⟩
  · rw [← hedge, hnodes "edge"]
    exact Option.or_none.symm
  · rw [← hrecord]
    exact (hinside _ t f hstop hfault).1.mp ⟨_, rfl⟩

end NodeLayers
