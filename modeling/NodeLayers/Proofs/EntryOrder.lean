import NodeLayers.Proofs.GlobalEntries

namespace NodeLayers

theorem Keyword.keyword_of_setting? {k : Keyword} {vs : List String} {s : Setting}
    (h : k.setting? vs = some s) : s.keyword = k := by
  revert h
  fun_cases Keyword.setting? k vs with
  | case6 v | case8 v | case9 v =>
    intro h
    obtain ⟨_, _, rfl⟩ := Option.map_eq_some_iff.mp h
    rfl
  | case11 => exact nofun
  | _ =>
    intro h
    obtain rfl := Option.some.inj h
    rfl

namespace OptionLine

variable {o : OptionLine} {s : Setting} {lines : List OptionLine} {settings : List Setting}

theorem tagsOf_of_setting? (h : o.setting? = some s) : s.tagsOf = o.tags := by
  have hkeyword := Keyword.keyword_of_setting? h
  unfold tags
  by_cases hk : o.keyword = .tags
  · rw [if_pos hk]
    rw [setting?, hk] at h
    cases h
    rfl
  · rw [if_neg hk]
    rw [← hkeyword] at hk
    cases s <;> first | rfl | exact absurd rfl hk

theorem tags_of_settings (h : List.Forall₂ (fun o s => o.setting? = some s) lines settings) :
    settings.flatMap Setting.tagsOf = lines.flatMap tags := by
  induction h with
  | nil => rfl
  | cons hs _ ih => rw [List.flatMap_cons, List.flatMap_cons, tagsOf_of_setting? hs, ih]

theorem find?_of_settings (h : List.Forall₂ (fun o s => o.setting? = some s) lines settings)
    (k : Keyword) :
    settings.find? (fun s => s.keyword = k) =
      (lines.find? fun o => o.keyword = k).bind setting? := by
  induction h with
  | nil => rfl
  | @cons o s lines settings hs _ ih =>
    rw [List.find?_cons, List.find?_cons, Keyword.keyword_of_setting? hs]
    by_cases hk : o.keyword = k
    · simp [hk, hs]
    · simp [hk, ih]

theorem findRev?_of_settings (h : List.Forall₂ (fun o s => o.setting? = some s) lines settings)
    (k : Keyword) :
    settings.findRev? (fun s => s.keyword = k) =
      (lines.findRev? fun o => o.keyword = k).bind setting? := by
  rw [List.findRev?_eq_find?_reverse, List.findRev?_eq_find?_reverse]
  exact find?_of_settings (List.forall₂_reverse_iff.mpr h) k

end OptionLine

namespace EntryLines

variable {rows rows' : List EntryLines} {entries : List App.Entry} {r r' : EntryLines}
  {x y : App.Entry}

theorem settings_of_says (h : List.Forall₂ Says rows entries) :
    List.Forall₂ (fun o s => o.setting? = some s) (rows.filterMap line?)
      (entries.filterMap App.Entry.setting?) := by
  induction h with
  | nil => exact .nil
  | cons hs _ ih =>
    cases hs with
    | option hsetting => exact .cons hsetting ih
    | node => exact ih

theorem nodes_of_says (h : List.Forall₂ Says rows entries) :
    entries.filterMap App.Entry.node? = (rows.filterMap block?).map NamedBlock.node ∧
      ∀ b ∈ rows.filterMap block?, (readOptions (∅ : Settings) b.alone).failure = none := by
  induction h with
  | nil => exact ⟨rfl, fun b hb => nomatch hb⟩
  | @cons r x rows entries hs _ ih =>
    obtain ⟨hnodes, hread⟩ := ih
    cases hs with
    | option hsetting => exact ⟨hnodes, hread⟩
    | @node b settings hresult =>
      obtain ⟨hfailure, hrecord⟩ := Filling.of_result hresult
      refine ⟨?_, fun b' hb => ?_⟩
      · have hnode : b.node = ⟨b.name.text, settings⟩ := by rw [NamedBlock.node, hrecord]
        exact (congrArg (List.cons _) hnodes).trans (by rw [← hnode]; rfl)
      · rcases List.mem_cons.mp hb with rfl | hb
        · exact hfailure
        · exact hread b' hb

/-- What an entry says does not depend on where it stands. -/
theorem Says.of_same (h : r.Says x) (hsame : r.Same r') : r'.Says x := by
  cases h with
  | @option o s hs =>
    cases hsame with
    | @option _ o' hname hargs =>
      have hkeyword : o.keyword = o'.keyword := by
        apply Keyword.text_inj
        rw [← o.text_name, hname, o'.text_name]
      refine .option ?_
      rw [OptionLine.setting?, ← hargs, ← hkeyword]
      exact hs
  | @node b settings hs =>
    cases hsame with
    | @node _ b' p q htokens =>
      obtain ⟨hname, hbehind⟩ := List.forall₂_cons.mp htokens
      have hfollows : Cursor.Follows (Token.Matches p q) b.alone b'.alone :=
        ⟨⟨hbehind, rfl, [b'.name], [], rfl, .cons hname .nil⟩, fun hnil => nomatch hnil⟩
      have hfilling := hfollows.readOptions (alike_matches p q) (∅ : Settings)
      obtain ⟨settings', hresult, rfl⟩ := hfilling.result.of_ok hs
      have htext : b.name.text = b'.name.text := hname.text
      rw [htext]
      exact .node hresult

theorem forall₂_says_of_same {rows rows' : List EntryLines} {entries : List App.Entry}
    (h : List.Forall₂ Says rows entries) (hsame : List.Forall₂ Same rows rows') :
    List.Forall₂ Says rows' entries := by
  induction h generalizing rows' with
  | nil =>
    cases hsame
    exact .nil
  | cons hs _ ih =>
    cases hsame with
    | cons hr hrest => exact .cons (hs.of_same hr) (ih hrest)

/-- An option and a named block can be applied in either order. -/
theorem Says.put_comm (hx : r.Says x) (hy : r'.Says y) (hne : r.isNode ≠ r'.isNode) (a : App) :
    (a.put x).put y = (a.put y).put x := by
  cases hx with
  | option =>
    cases hy with
    | option => exact absurd rfl hne
    | node => exact (App.set_putNode a _ _).symm
  | node =>
    cases hy with
    | option => exact App.set_putNode a _ _
    | node => exact absurd rfl hne

theorem says_exchanged {before after : List EntryLines} (hne : r.isNode ≠ r'.isNode)
    (h : List.Forall₂ Says (before ++ r :: r' :: after) entries) (a : App) :
    ∃ entries', List.Forall₂ Says (before ++ r' :: r :: after) entries' ∧
      entries.foldl App.put a = entries'.foldl App.put a := by
  induction before generalizing entries a with
  | nil =>
    cases h with
    | cons hx h =>
      cases h with
      | cons hy hrest =>
        refine ⟨_, .cons hy (.cons hx hrest), ?_⟩
        simp only [List.foldl_cons, hx.put_comm hy hne a]
  | cons b before ih =>
    cases h with
    | @cons _ e _ _ hb hrest =>
      obtain ⟨entries', hsays, hsame⟩ := ih hrest (a.put e)
      exact ⟨e :: entries', .cons hb hsays, hsame⟩

end EntryLines

/-- A global option is what its entries say on their own. Of the options with one value the last
counts and tags add up; a node is what the last block with its name makes of an empty one, and the
names stand as they were first given. So an option and a named block that stand one after the other
can be exchanged. -/
theorem App.read_entries {rows : List EntryLines} {s : Segment} {a : App}
    (h : OptionSegment rows s) (ha : (App.read (.ofTokens s)).1 = .ok a) :
    (∀ k ∉ [Keyword.hostname, .port, .tags], a.option? k =
        (((rows.filterMap EntryLines.line?).findRev? fun o => o.keyword = k).bind
          OptionLine.setting?).or ((∅ : App).option? k)) ∧
      a.tags = (rows.filterMap EntryLines.line?).flatMap OptionLine.tags ∧
      a.nodes.keys = ((rows.filterMap EntryLines.block?).map fun b => b.name.text).eraseDups ∧
      (∀ n, a.nodes.get? n =
        ((rows.filterMap EntryLines.block?).findRev? fun b => b.name.text == n).map
          NamedBlock.node) ∧
      (∀ o ∈ rows.filterMap EntryLines.line?, ∃ s, o.setting? = some s) ∧
      (∀ b ∈ rows.filterMap EntryLines.block?,
        (readOptions (∅ : Settings) b.alone).failure = none) ∧
      ∀ before x y after rows' s', rows = before ++ x :: y :: after → x.isNode ≠ y.isNode →
        List.Forall₂ EntryLines.Same (before ++ y :: x :: after) rows' → OptionSegment rows' s' →
        (App.read (.ofTokens s')).1 = .ok a := by
  obtain ⟨entries, hsays, rfl⟩ := (App.read_rows h).mp ha
  have hsettings := EntryLines.settings_of_says hsays
  obtain ⟨hnodes, hread⟩ := EntryLines.nodes_of_says hsays
  refine ⟨fun k hk => ?_, ?_, ?_, fun n => ?_, fun o ho => ?_, hread, ?_⟩
  · rw [App.option?_foldl_put hk, OptionLine.findRev?_of_settings hsettings]
  · rw [App.tags_foldl_put, OptionLine.tags_of_settings hsettings]
    rfl
  · rw [App.keys_foldl_put, hnodes, List.map_map]
    rfl
  · rw [App.get?_foldl_put, hnodes, List.findRev?_eq_find?_reverse,
      List.findRev?_eq_find?_reverse, ← List.map_reverse, List.find?_map]
    exact Option.or_none
  · obtain ⟨s, _, hs⟩ := exists_of_mem_of_forall₂ hsettings ho
    exact ⟨s, hs⟩
  · rintro before x y after rows' s' rfl hne hsame h'
    obtain ⟨entries', hsays', hfold⟩ := EntryLines.says_exchanged hne hsays ∅
    exact (App.read_rows h').mpr ⟨entries', EntryLines.forall₂_says_of_same hsays' hsame, hfold⟩

theorem endsLine_of_last {ts rest : List Token} {t u : Token} (ht : ts.getLast? = some t)
    (hu : rest.head? = some u) (hs : t.sharesLine u = false) : EndsLine ts rest := by
  intro t' ht' u' hu'
  obtain rfl := Option.some.inj (ht.symm.trans ht')
  obtain rfl := Option.some.inj (hu.symm.trans hu')
  exact hs

/-- `ephemeral` with a value, on this line. -/
def ephemeralLine (n : Nat) (v : String) (hv : v ≠ "\x7b") : OptionLine where
  name := ⟨none, n, "ephemeral", false⟩
  args := [⟨none, n, v, false⟩]
  keyword := .ephemeral
  text_name := rfl
  global := by decide
  plain := by simpa [Token.opens] using hv
  oneLine := oneLine_pair.mpr (by simp [Token.sharesLine, Token.lastLine, Source.agrees])
  single := by simp

theorem plain_edge (n : Nat) :
    Token.closes ⟨none, n, "edge", false⟩ = false ∧
      Token.opens ⟨none, n, "edge", false⟩ = false :=
  ⟨rfl, rfl⟩

theorem sharesLine_edge (n : Nat) :
    Token.sharesLine ⟨none, n, "edge", false⟩ ⟨none, n, "\x7b", false⟩ = true := by
  simp [Token.sharesLine, Token.lastLine, Source.agrees]

theorem opens_edge (n : Nat) : Token.opens ⟨none, n, "\x7b", false⟩ = true := rfl

theorem closes_edge (n : Nat) : Token.closes ⟨none, n + 2, "\x7d", false⟩ = true := rfl

/-- A node that starts on this line. -/
def edgeBlock (n : Nat) : NamedBlock where
  name := ⟨none, n, "edge", false⟩
  brace := ⟨none, n, "\x7b", false⟩
  body := [⟨none, n + 1, "hostname", false⟩, ⟨none, n + 1, "h1", false⟩]
  last := ⟨none, n + 2, "\x7d", false⟩
  free := keyword?_eq_none_iff.mp (App.keyword?_eq_none (by simp) ∅)
  plain := plain_edge n
  line := sharesLine_edge n
  opens := opens_edge n
  balanced := balanced_iff_level?.mpr rfl
  closes := closes_edge n

/-- The global option with these entries, from the first line to the seventh. -/
def smallOption (rows : List EntryLines) : Segment :=
  ⟨none, 1, "tailscale", false⟩ :: keptBlock ⟨none, 1, "\x7b", false⟩
    (rows.map EntryLines.tokens).flatten ⟨none, 7, "\x7d", false⟩

/-- The flag is switched on and off again in front of a named block, or around it. -/
def offBefore : List EntryLines :=
  [.option (ephemeralLine 2 "T" (by decide)), .option (ephemeralLine 3 "false" (by decide)),
    .node (edgeBlock 4)]

def offBehind : List EntryLines :=
  [.option (ephemeralLine 2 "T" (by decide)), .node (edgeBlock 3),
    .option (ephemeralLine 6 "false" (by decide))]

theorem App.read_exchanged :
    ∃ a, (App.read (.ofTokens (smallOption offBefore))).1 = .ok a ∧
      (App.read (.ofTokens (smallOption offBehind))).1 = .ok a ∧ a.ephemeral = false := by
  have hbefore : OptionSegment offBefore (smallOption offBefore) :=
    ⟨_, _, _, by decide, rfl, rfl, Laid.linesEnd ⟨endsLine_of_last rfl rfl (by decide),
      endsLine_of_last rfl rfl (by decide), endsLine_of_last rfl rfl (by decide), trivial⟩, rfl⟩
  have hbehind : OptionSegment offBehind (smallOption offBehind) :=
    ⟨_, _, _, by decide, rfl, rfl, Laid.linesEnd ⟨endsLine_of_last rfl rfl (by decide),
      endsLine_of_last rfl rfl (by decide), endsLine_of_last rfl rfl (by decide), trivial⟩, rfl⟩
  have hread : (App.read (.ofTokens (smallOption offBefore))).1.toOption.isSome = true := by
    decide +kernel
  cases ha : (App.read (.ofTokens (smallOption offBefore))).1 with
  | error e =>
    rw [ha] at hread
    cases hread
  | ok a =>
    obtain ⟨hoptions, _, _, _, _, _, hexchange⟩ := App.read_entries hbefore ha
    have hflag : some (Setting.ephemeral a.ephemeral) = some (.ephemeral false) :=
      (hoptions .ephemeral (by decide)).trans (by decide)
    have hsame : List.Forall₂ EntryLines.Same
        [.option (ephemeralLine 2 "T" (by decide)), .node (edgeBlock 4),
          .option (ephemeralLine 3 "false" (by decide))] offBehind := by
      refine .cons (.option rfl rfl) (.cons (.node ⟨none, 4⟩ ⟨none, 3⟩ ?_)
        (.cons (.option rfl rfl) .nil))
      repeat' constructor
    exact ⟨a, rfl, hexchange [_] _ _ [] _ _ rfl (by decide) hsame hbehind, by simpa using hflag⟩

end NodeLayers
