import NodeLayers.Proofs.JsonSettings

namespace NodeLayers

section order

variable {α : Type}

/-- The same values in the order of their names. -/
def Table.inOrder (t : Table α) : Table α :=
  ⟨t.sorted, ((sortedByKey_perm t.entries).map Prod.fst).nodup_iff.mpr t.nodup_keys⟩

theorem Table.entries_inOrder_perm (t : Table α) : t.inOrder.entries.Perm t.entries :=
  sortedByKey_perm t.entries

theorem Table.get?_inOrder (t : Table α) (n : String) : t.inOrder.get? n = t.get? n := by
  apply Option.ext
  intro v
  rw [get?_eq_some_iff, get?_eq_some_iff]
  exact t.entries_inOrder_perm.mem_iff

theorem Table.keys_inOrder (t : Table α) : t.inOrder.keys.Pairwise (· < ·) := by
  have hle : t.inOrder.keys.Pairwise (· ≤ ·) :=
    List.pairwise_map.mpr (pairwise_sortedByKey t.entries)
  exact (hle.and t.inOrder.nodup_keys).imp fun h => Std.lt_of_le_of_ne h.1 h.2

theorem Table.entries_inOrder_eq {t : Table α} {es : List (String × α)} (h : es.Perm t.entries)
    (hle : es.Pairwise fun e f => e.1 ≤ f.1) : es = t.inOrder.entries := by
  have hperm : es.Perm t.inOrder.entries := h.trans t.entries_inOrder_perm.symm
  refine List.Perm.eq_of_pairwise (fun e f he hf hef hfe => ?_) hle
    (pairwise_sortedByKey t.entries) hperm
  have hname : e.1 = f.1 := String.le_antisymm hef hfe
  exact List.inj_on_of_nodup_map t.nodup_keys (h.mem_iff.mp he)
    (t.entries_inOrder_perm.mem_iff.mp hf) hname

end order

/-- The value gives this node, which stands under its own name. -/
def Json.SaysNode (j : Json) (e : String × Node) : Prop :=
  e.2.name = e.1 ∧ j.SaysSettings e.2.settings

def Json.SaysNodes (j : Json) (t : Table Node) : Prop :=
  j.HasFields Prod.fst SaysNode t.entries

theorem Json.SaysNodes.sorted {j : Json} {t : Table Node} (h : j.SaysNodes t) :
    j.sorted.SaysNodes t.inOrder := by
  have hnodes : ∀ (v : Json) (e : String × Node), v.SaysNode e → v.sorted.SaysNode e :=
    fun v e he => ⟨he.1, he.2.sorted⟩
  obtain ⟨es, hperm, hle, hfields⟩ := HasFields.sorted h SaysNode hnodes
  rw [Table.entries_inOrder_eq hperm hle] at hfields
  exact hfields

namespace App

/-- A field of the app: an option, or all nodes. -/
inductive Field
  | setting (o : Setting)
  | nodes (t : Table Node)

namespace Field

def name : Field → String
  | setting o => o.name
  | nodes _ => nodesField

def sorted : Field → Field
  | setting o => setting o
  | nodes t => nodes t.inOrder

def SaidBy : Field → Json → Prop
  | setting o, v => (∅ : App).takes o.keyword = true ∧ v = o.value
  | nodes t, v => v.SaysNodes t

end Field

def putField (a : App) : Field → App
  | .setting o => a.set o
  | .nodes t => { a with nodes := t }

/-- The fields that say anything, in their order. -/
def fields (a : App) : List Field :=
  a.given.map .setting ++ if a.nodes.isEmpty then [] else [.nodes a.nodes]

/-- The same app with its nodes in the order of their names. -/
def inOrder (a : App) : App :=
  { a with nodes := a.nodes.inOrder }

section readers

variable {write : Nat → Json → List Char}

/-- The node of one member, added to the nodes before it. -/
def readNode (room : Nat) (nodes : Table Node) (name : String) (cs : List Char) :
    Except JsonError (Parsed (Table Node)) := do
  let (settings, rest) ← Settings.readJson (room - 1) (← skipColon cs)
  .ok (nodes.insert name ⟨name, settings⟩, rest)

theorem reads_readNode (w : Writing write) (room depth : Nat) (nodes : Table Node) {v : Json}
    {e : String × Node} (h : v.SaysNode e) :
    Reads (fun cs => readNode room nodes e.1 (':' :: cs)) (write depth v)
      (nodes.insert e.1 e.2) := by
  have hnode : (⟨e.1, e.2.settings⟩ : Node) = e.2 := by rw [← h.1]
  have hsettings := (Settings.reads_readJson w (room - 1) depth h.2).map
    fun settings => nodes.insert e.1 ⟨e.1, settings⟩
  rw [hnode] at hsettings
  exact hsettings

theorem reads_readNodes (w : Writing write) (room depth : Nat) {j : Json} {t : Table Node}
    (h : j.SaysNodes t) : Reads (readNodes room) (write depth j) t := by
  intro lead rest hlead _
  obtain ⟨ms, rfl, hms⟩ := h
  have hread : ∀ (nodes : Table Node) (v : Json) (e : String × Node), v.SaysNode e → True →
      Reads (fun cs => readNode room nodes e.1 (':' :: cs)) (write (depth + 1) v)
        (nodes.insert e.1 e.2) :=
    fun nodes _ _ hv _ => reads_readNode w room (depth + 1) nodes hv
  have hmembers := readsMembers_of_fields (readNode room) (fun _ _ => True) hread
    (fun _ _ _ _ h => h) hms t.nodup_keys ∅ fun _ _ => trivial
  have hfold := Table.foldl_insert t.entries ∅ t.nodup_keys
  obtain ⟨body, hfound, hbody⟩ := w.reads_object depth hmembers hlead rest
  rw [hfold] at hbody
  rw [readNodes, hfound]
  exact hbody

theorem name_ne_nodesField (o : Setting) : o.name ≠ nodesField := by
  have hne : ∀ k : Keyword, k.text ≠ nodesField := by
    intro k
    cases k <;> decide
  exact hne o.keyword

theorem reads_readMember (w : Writing write) (room depth : Nat) (p : Partly App) {v : Json}
    {f : Field} (h : f.SaidBy v) (hnew : f.name ∉ p.seen) :
    Reads (fun cs => readMember room p f.name (':' :: cs)) (write depth v)
      (p.put putField Field.name f) := by
  intro lead rest hlead hrest
  cases f with
  | setting o =>
    obtain ⟨htakes, rfl⟩ := h
    have hset := reads_readSetting w reads_readSwitch depth o lead rest hlead hrest
    have hkeyword : Keyword.ofText? o.name = some o.keyword := Keyword.ofText?_eq_some.mpr rfl
    have hfield : field? p.record o.name = some (some o.keyword) := by
      rw [field?, if_neg (name_ne_nodesField o), OptionRecord.keyword?, hkeyword,
        Option.filter_some, if_pos]
      · rfl
      · exact htakes
    simp only [Field.name] at hnew ⊢
    simp only [readMember, hfield, Partly.note, if_neg hnew, skipColon_cons, readField, hset, bind,
      Except.bind, setOption]
    rfl
  | nodes t =>
    have hnodes := reads_readNodes w room depth h lead rest hlead hrest
    have hfield : field? p.record nodesField = some none := if_pos rfl
    simp only [Field.name] at hnew ⊢
    simp only [readMember, hfield, Partly.note, if_neg hnew, skipColon_cons, readField, hnodes,
      bind, Except.bind]
    rfl

end readers

theorem putField_right_comm (a : App) (f g : Field) (h : f.name ≠ g.name) :
    putField (putField a f) g = putField (putField a g) f := by
  cases f with
  | setting o =>
    cases g with
    | setting p => cases o <;> cases p <;> first | rfl | exact absurd rfl h
    | nodes t => cases o <;> rfl
  | nodes t =>
    cases g with
    | setting p => cases p <;> rfl
    | nodes u => exact absurd rfl h

theorem foldl_fields (a : App) : a.fields.foldl putField ∅ = a := by
  have hgiven : (a.given.map Field.setting).foldl putField ∅ = { a with nodes := ∅ } := by
    rw [List.foldl_map]
    exact a.foldl_given
  rw [fields, List.foldl_append, hgiven]
  split
  next h =>
    have hentries : a.nodes.entries = [] := List.isEmpty_iff.mp h
    have hnodes : a.nodes = ∅ := by
      rcases hn : a.nodes with ⟨es, hes⟩
      rw [hn] at hentries
      subst hentries
      rfl
    exact congrArg (fun t => { a with nodes := t }) hnodes.symm
  next => rfl

theorem keywords_given (a : App) : (a.given.map Setting.keyword).Sublist
    [.authKey, .controlUrl, .ephemeral, .stateDir, .webui, .tags] := by
  simp only [given, List.map_append]
  exact (((((keyword_unless_sublist _ _).append (keyword_unless_sublist _ _)).append
    (keyword_unless_sublist _ _)).append (keyword_unless_sublist _ _)).append
    (keyword_unless_sublist _ _)).append (keyword_unless_sublist _ _)

theorem nodup_names_fields (a : App) : (a.fields.map Field.name).Nodup := by
  have hnodes : ((if a.nodes.isEmpty then [] else [Field.nodes a.nodes]).map
      Field.name).Sublist [nodesField] := by
    split
    · exact List.nil_sublist _
    · exact List.Sublist.refl _
  have hnames := ((a.keywords_given.map Keyword.text).append hnodes).nodup (by decide)
  rw [List.map_map] at hnames
  rw [fields, List.map_append, List.map_map]
  exact hnames

/-- The value is an object that gives this app, each field in one member. -/
def SaidBy (a : App) (j : Json) : Prop :=
  ∃ fs : List Field, fs.Perm a.fields ∧ j.HasFields Field.name (fun v f => f.SaidBy v) fs

/-- An app is read back from any object that gives it. -/
theorem reads_readJson {write : Nat → Json → List Char} (w : Writing write) (room depth : Nat)
    {j : Json} {a : App} (h : a.SaidBy j) : Reads (readJson room) (write depth j) a := by
  intro lead rest hlead _
  obtain ⟨fs, hperm, ms, rfl, hms⟩ := h
  have hnodup := (hperm.map Field.name).nodup_iff.mpr a.nodup_names_fields
  have hread : ∀ (p : Partly App) (v : Json) (f : Field), f.SaidBy v → f.name ∉ p.seen →
      Reads (fun cs => readMember (room - 1) p f.name (':' :: cs)) (write (depth + 1) v)
        (p.put putField Field.name f) :=
    fun p _ _ hv hnew => reads_readMember w (room - 1) (depth + 1) p hv hnew
  have hmembers := readsMembers_of_fields (readMember (room - 1)) (fun p f => f.name ∉ p.seen) hread
    Partly.not_mem_seen_put hms hnodup ⟨∅, []⟩ fun _ _ => List.not_mem_nil
  have hfold : fs.foldl putField ∅ = a := by
    rw [foldl_put_perm putField_right_comm hperm hnodup, foldl_fields]
  obtain ⟨body, hfound, hbody⟩ := w.reads_object depth hmembers hlead rest
  rw [readJson, hfound]
  simp only [bind, Except.bind, hbody, Partly.record_foldl_put, hfold]

theorem ofJsonText_of_saidBy {a : App} {j : Json} (h : a.SaidBy j) :
    ∀ text ∈ [j.compact, j.pretty], ofJsonText text = .ok a := by
  have hcompact := (reads_readJson Json.writing_chars maxDepth 0 h).whole
  have hpretty := (reads_readJson Json.writing_prettyChars maxDepth 0 h).whole
  intro text htext
  rcases List.mem_pair.mp htext with rfl | rfl
  · exact hcompact
  · exact hpretty

theorem members_eq (a : App) : a.members = a.given.map Setting.member ++ nodesMember a.nodes := by
  simp only [members, given, List.map_append]
  rw [textMember_eq .authKey, textMember_eq .controlUrl, textMember_eq .stateDir,
    switchMember_eq .ephemeral, switchMember_eq .webui, tagsMember_eq]
  all_goals exact fun _ => rfl

theorem saysNodes_json {t : Table Node} (h : ∀ e ∈ t.entries, e.2.name = e.1) :
    (Json.object (t.entries.map fun e => (e.1, e.2.json))).SaysNodes t := by
  refine ⟨_, rfl, ?_⟩
  rw [List.forall₂_map_left_iff, List.forall₂_same]
  exact fun e he => ⟨rfl, h e he, e.2.settings.saysSettings_json⟩

theorem saidBy_json {a : App} (h : a.KeyedByName) : a.SaidBy a.json := by
  refine ⟨a.fields, .refl _, a.members, rfl, ?_⟩
  rw [members_eq, fields]
  refine List.rel_append ?_ ?_
  · rw [List.forall₂_map_left_iff, List.forall₂_map_right_iff, List.forall₂_same]
    exact fun o ho => ⟨rfl, takes_given ho ∅, rfl⟩
  · unfold nodesMember
    split
    · exact .nil
    · exact .cons ⟨rfl, saysNodes_json h⟩ .nil

theorem fields_inOrder (a : App) : a.inOrder.fields = a.fields.map Field.sorted := by
  have hempty : a.nodes.inOrder.isEmpty = a.nodes.isEmpty := by
    exact a.nodes.entries_inOrder_perm.isEmpty_eq
  have hnodes : a.inOrder.fields = a.given.map .setting ++
      if a.nodes.isEmpty then [] else [Field.nodes a.nodes.inOrder] := by
    rw [← hempty]
    rfl
  rw [hnodes, fields, List.map_append, List.map_map, apply_ite (List.map Field.sorted)]
  rfl

/-- Sorting the object that gives an app brings its nodes in the order of their names. -/
theorem SaidBy.sorted {a : App} {j : Json} (h : a.SaidBy j) : a.inOrder.SaidBy j.sorted := by
  obtain ⟨fs, hperm, hfields⟩ := h
  have hvalues : ∀ (v : Json) (f : Field), f.SaidBy v → f.sorted.SaidBy v.sorted := by
    intro v f hv
    cases f with
    | setting o => exact ⟨hv.1, by rw [hv.2, o.sorted_value]⟩
    | nodes t => exact Json.SaysNodes.sorted hv
  obtain ⟨gs, hgs, _, ms, hobject, hms⟩ := hfields.sorted (fun v f => f.sorted.SaidBy v) hvalues
  refine ⟨gs.map Field.sorted, ?_, ms, hobject, ?_⟩
  · rw [fields_inOrder]
    exact (hgs.trans hperm).map Field.sorted
  · rw [List.forall₂_map_right_iff]
    exact hms.imp fun m f hm => ⟨by rw [hm.1]; cases f <;> rfl, hm.2⟩

/-- An app is read back from its own text with its nodes in their order, and from the value of its
entry with its nodes in the order of their names. -/
theorem ofJsonText_json (a : App) (h : a.KeyedByName) :
    (∀ text ∈ [a.json.compact, a.json.pretty], ofJsonText text = .ok a) ∧
      ∃ value b, a.entry = .object [("name", .text name), ("value", value)] ∧
        (∀ text ∈ [value.compact, value.pretty], ofJsonText text = .ok b) ∧
        b = { a with nodes := b.nodes } ∧ (∀ n, b.nodes.get? n = a.nodes.get? n) ∧
        b.nodes.keys.Pairwise (· < ·) ∧ b.KeyedByName := by
  have hsaid := saidBy_json h
  refine ⟨ofJsonText_of_saidBy hsaid, a.json.sorted, a.inOrder, rfl,
    ofJsonText_of_saidBy hsaid.sorted, rfl, a.nodes.get?_inOrder, a.nodes.keys_inOrder, ?_⟩
  intro e he
  exact h e (a.nodes.entries_inOrder_perm.mem_iff.mp he)

def twoNodes : App where
  authKey := "\"\\\x01é"
  controlUrl := ""
  ephemeral := true
  stateDir := ""
  webui := false
  tags := ["", "tag:a"]
  nodes := ⟨[("web", ⟨"web", { (∅ : Settings) with ephemeral := some false, port := 65535 }⟩),
    ("", ⟨"", ∅⟩)], by decide⟩

def twoNodesText : String :=
  "\x7b\"auth_key\":\"\\\"\\\\\\u0001é\",\"ephemeral\":true,\"tags\":[\"\",\"tag:a\"]," ++
    "\"nodes\":\x7b\"web\":\x7b\"ephemeral\":false,\"port\":65535\x7d,\"\":\x7b\x7d\x7d\x7d"

theorem ofJsonText_twoNodes :
    twoNodes.KeyedByName ∧ ofJsonText twoNodesText = .ok twoNodes ∧
      ∃ b : App, ofJsonText twoNodes.json.sorted.pretty = .ok b ∧
        b.nodes.get? "web" = twoNodes.nodes.get? "web" := by
  have hkeyed : twoNodes.KeyedByName := by decide
  have htext : twoNodes.json.compact = twoNodesText := by decide +kernel
  obtain ⟨hown, value, b, hentry, hvalue, _, hget, _, _⟩ := ofJsonText_json twoNodes hkeyed
  cases hentry
  refine ⟨hkeyed, ?_, b, hvalue _ (by simp), hget "web"⟩
  rw [← htext]
  exact hown _ List.mem_cons_self

end App

end NodeLayers
