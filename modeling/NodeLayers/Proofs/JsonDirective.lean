import NodeLayers.Proofs.JsonSettings
import NodeLayers.Proofs.Publishing

namespace NodeLayers

section values

variable {write : Nat → Json → List Char}

/-- One more value behind those before it. -/
def readItem (room : Nat) (items : List Json) (cs : List Char) :
    Except JsonError (Parsed (List Json)) := do
  let (j, rest) ← readValue room cs
  .ok (items ++ [j], rest)

theorem reads_textValue (w : Writing write) (room depth : Nat) (s : String) :
    Reads (readValue room) (write depth (.text s)) (.text s) := by
  intro lead rest hlead hrest
  rw [w.scalar depth (.text s) trivial, readValue]
  simp only [reads_text s lead rest hlead hrest, bind, Except.bind]

theorem readsParts_texts (w : Writing write) (room depth : Nat) (vs : List String)
    (before : List Json) : ReadsParts (readItem room) before
      ((vs.map Json.text).map (write depth)) (before ++ vs.map Json.text) := by
  have hparts := readsParts_append
    (fun items v => (reads_textValue w room depth v).map (items ++ [·])) vs before
  rw [List.map_map]
  exact hparts

/-- What an option says is read as the same value again. -/
theorem reads_value (w : Writing write) (room depth : Nat) (o : Setting) :
    Reads (readValue (room + 1)) (write depth o.value) o.value := by
  have hbool : ∀ b, Reads (readValue (room + 1)) (write depth (.bool b)) (.bool b) := by
    intro b lead rest hlead hrest
    rw [w.scalar depth (.bool b) trivial, readValue]
    simp only [reads_bool b lead rest hlead hrest, bind, Except.bind]
  cases o with
  | authKey v => exact reads_textValue w (room + 1) depth v
  | controlUrl v => exact reads_textValue w (room + 1) depth v
  | hostname v => exact reads_textValue w (room + 1) depth v
  | stateDir v => exact reads_textValue w (room + 1) depth v
  | ephemeral b => exact hbool b
  | webui b => exact hbool b
  | port p =>
    intro lead rest hlead hrest
    have hlt := p.toNat_lt
    have hport := reads_integer (Nat.lt_trans hlt (by decide)) lead rest hlead hrest
    rw [Setting.value, w.scalar depth (.integer p.toNat) trivial, readValue]
    simp only [hport, bind, Except.bind]
  | tags vs =>
    intro lead rest hlead _
    obtain ⟨body, hfound, hitems⟩ :=
      w.reads_list depth (readsParts_texts w room (depth + 1) vs [])
        (w.startsPart_texts (depth + 1) vs) hlead rest
    have hlist : readItems (fun items cs => do
        let (j, rest) ← readValue room cs
        .ok (items ++ [j], rest)) [] body = .ok (vs.map .text, rest) := hitems
    rw [readValue, Setting.value, hfound]
    simp only [bind, Except.bind] at hlist ⊢
    rw [hlist]

end values

theorem tagsOfItems_texts (vs : List String) : tagsOfItems (vs.map .text) = .ok vs := by
  induction vs with
  | nil => rfl
  | cons v vs ih =>
    rw [List.map_cons, tagsOfItems, ih]
    rfl

/-- An option is made again from its value. -/
theorem Keyword.settingOf_value (o : Setting) : o.keyword.settingOf o.value = .ok (some o) := by
  cases o with
  | port p =>
    have hport : (Json.integer p.toNat).found.asPort = .ok p := asPort_toNat p
    rw [Setting.keyword, Setting.value, settingOf, hport]
    rfl
  | tags vs => exact congrArg (Except.map (some ∘ Setting.tags)) (tagsOfItems_texts vs)
  | _ => rfl

theorem Partly.addMembers_append (ms ns : List (String × Json)) (p : Partly Settings) :
    p.addMembers (ms ++ ns) = (p.addMembers ms).bind (·.addMembers ns) := by
  induction ms generalizing p with
  | nil => rfl
  | cons m ms ih =>
    rw [List.cons_append, addMembers, addMembers]
    cases Keyword.ofText? m.1 with
    | none => exact ih p
    | some k =>
      simp only [bind, Except.bind]
      cases p.note m.1 with
      | error e => rfl
      | ok q =>
        cases k.settingOf m.2 with
        | error reason => rfl
        | ok setting => exact ih _

namespace Directive

/-- A field of a directive, or the one that an entry has besides. -/
inductive Field
  | handler
  | nodeName (v : String)
  | setting (o : Setting)

namespace Field

def name : Field → String
  | handler => "handler"
  | nodeName _ => nodeNameField
  | setting o => o.name

def value : Field → Json
  | handler => .text Directive.name
  | nodeName v => .text v
  | setting o => o.value

end Field

def putField (d : Directive) : Field → Directive
  | .handler => d
  | .nodeName v => { d with nodeName := v }
  | .setting o => { d with settings := d.settings.set o }

/-- The fields that say anything, in their order. -/
def fields (d : Directive) : List Field :=
  (if d.nodeName = "" then [] else [.nodeName d.nodeName]) ++ d.settings.given.map .setting

/-- The node's name and the members kept, after one more field. -/
def keep (p : Option String × List (String × Json)) :
    Field → Option String × List (String × Json)
  | .nodeName v => (some v, p.2)
  | f => (p.1, p.2 ++ [(f.name, f.value)])

/-- The name and the members kept make this directive, with settings of these names. -/
structure Kept (p : Option String × List (String × Json)) (d : Directive) (seen : List String) :
    Prop where
  nodeName : p.1.getD "" = d.nodeName
  settings : Partly.addMembers ⟨∅, []⟩ p.2 = .ok ⟨d.settings, seen⟩

theorem name_ne_nodeNameField (o : Setting) : o.name ≠ nodeNameField := by
  have hne : ∀ k : Keyword, k.text ≠ nodeNameField := by
    intro k
    cases k <;> decide
  exact hne o.keyword

section kept

variable {p : Option String × List (String × Json)} {d : Directive} {seen : List String}

theorem Kept.put (h : Kept p d seen) (f : Field) (hnew : f.name ∉ seen) :
    ∃ later, Kept (keep p f) (putField d f) later ∧ ∀ n ∈ later, n = f.name ∨ n ∈ seen := by
  cases f with
  | nodeName v => exact ⟨seen, ⟨rfl, h.settings⟩, fun _ => Or.inr⟩
  | handler =>
    -- no option has this name, and a member of another name is passed over
    refine ⟨seen, ⟨h.nodeName, ?_⟩, fun _ => Or.inr⟩
    have hunknown : Keyword.ofText? "handler" = none := by decide
    simp only [keep, Partly.addMembers_append, h.settings, Except.bind, Field.name,
      Partly.addMembers, hunknown, putField]
  | setting o =>
    refine ⟨o.name :: seen, ⟨h.nodeName, ?_⟩, fun n => List.mem_cons.mp⟩
    have hkeyword : Keyword.ofText? o.name = some o.keyword := Keyword.ofText?_eq_some.mpr rfl
    simp only [Field.name] at hnew
    simp only [keep, Partly.addMembers_append, h.settings, Except.bind, Field.name, Field.value,
      Partly.addMembers, hkeyword, Partly.note, if_neg hnew, bind, Keyword.settingOf_value,
      setOption, putField]
    rfl

/-- Fields of different names are kept one after the other as the directive that they make. -/
theorem Kept.foldl (fs : List Field) (h : Kept p d seen) (hnodup : (fs.map Field.name).Nodup)
    (hnew : ∀ f ∈ fs, f.name ∉ seen) :
    ∃ later, Kept (fs.foldl keep p) (fs.foldl putField d) later := by
  induction fs generalizing p d seen with
  | nil => exact ⟨seen, h⟩
  | cons f fs ih =>
    rw [List.map_cons, List.nodup_cons] at hnodup
    obtain ⟨later, hput, hlater⟩ := h.put f (hnew f List.mem_cons_self)
    refine ih hput hnodup.2 fun g hg hmem => ?_
    rcases hlater _ hmem with heq | hseen
    · exact hnodup.1 (heq ▸ List.mem_map_of_mem hg)
    · exact hnew g (List.mem_cons_of_mem f hg) hseen

end kept

theorem putField_right_comm (d : Directive) (f g : Field) (h : f.name ≠ g.name) :
    putField (putField d f) g = putField (putField d g) f := by
  cases f with
  | handler => rfl
  | nodeName v =>
    cases g with
    | handler => rfl
    | nodeName u => exact absurd rfl h
    | setting o => rfl
  | setting o =>
    cases g with
    | handler => rfl
    | nodeName u => rfl
    | setting q => exact congrArg (Directive.mk d.nodeName) (Settings.set_right_comm _ o q h)

theorem foldl_fields (d : Directive) : d.fields.foldl putField ∅ = d := by
  have hsettings : ∀ (os : List Setting) (n : String) (s : Settings),
      (os.map Field.setting).foldl putField ⟨n, s⟩ = ⟨n, os.foldl Settings.set s⟩ := by
    intro os n s
    induction os generalizing s with
    | nil => rfl
    | cons o os ih => exact ih (s.set o)
  have hname : (if d.nodeName = "" then [] else [Field.nodeName d.nodeName]).foldl putField ∅ =
      ⟨d.nodeName, ∅⟩ := by
    split
    next h => rw [h]; rfl
    next => rfl
  rw [fields, List.foldl_append, hname, hsettings, Settings.foldl_given]

/-- No field of a directive or its entry has the name of another. -/
theorem nodup_names_fields (d : Directive) : ((.handler :: d.fields).map Field.name).Nodup := by
  have hname : ((if d.nodeName = "" then [] else [Field.nodeName d.nodeName]).map
      Field.name).Sublist [nodeNameField] := by
    split
    · exact List.nil_sublist _
    · exact List.Sublist.refl _
  have hnames := ((hname.append (d.settings.keywords_given.map Keyword.text)).cons_cons
    "handler").nodup (by decide)
  rw [List.map_map] at hnames
  rw [List.map_cons, fields, List.map_append, List.map_map]
  exact hnames

/-- The value is an object that gives this directive, each field in one member. -/
def SaidBy (d : Directive) (j : Json) : Prop :=
  ∃ fs : List Field, (fs.Perm d.fields ∨ fs.Perm (.handler :: d.fields)) ∧
    j.HasFields Field.name (fun v f => v = f.value) fs

theorem foldl_of_perm {d : Directive} {fs : List Field}
    (h : fs.Perm d.fields ∨ fs.Perm (.handler :: d.fields)) :
    (fs.map Field.name).Nodup ∧ fs.foldl putField ∅ = d := by
  have hall := d.nodup_names_fields
  rcases h with hperm | hperm
  · have hnodup := (hperm.map Field.name).nodup_iff.mpr (List.nodup_cons.mp hall).2
    exact ⟨hnodup, by rw [foldl_put_perm putField_right_comm hperm hnodup, foldl_fields]⟩
  · have hnodup := (hperm.map Field.name).nodup_iff.mpr hall
    refine ⟨hnodup, ?_⟩
    rw [foldl_put_perm putField_right_comm hperm hnodup, List.foldl_cons]
    exact d.foldl_fields

section readers

variable {write : Nat → Json → List Char}

theorem reads_readMember (w : Writing write) (room depth : Nat)
    (p : Option String × List (String × Json)) (f : Field)
    (hfirst : f.name = nodeNameField → p.1 = none) :
    Reads (fun cs => readMember (room + 1) p f.name (':' :: cs)) (write depth f.value)
      (keep p f) := by
  intro lead rest hlead hrest
  cases f with
  | nodeName v =>
    have hread := reads_asText w depth v lead rest hlead hrest
    simp only [readMember, Field.name, Field.value, if_pos, hfirst rfl, Option.isSome_none,
      Bool.false_eq_true, if_false, skipColon_cons, hread, bind, Except.bind, keep]
  | handler =>
    have hne : "handler" ≠ nodeNameField := by decide
    have hread := reads_textValue w (room + 1) depth Directive.name lead rest hlead hrest
    simp only [readMember, Field.name, Field.value, if_neg hne, skipColon_cons, hread, bind,
      Except.bind, keep]
  | setting o =>
    have hread := reads_value w room depth o lead rest hlead hrest
    simp only [readMember, Field.name, Field.value, if_neg (name_ne_nodeNameField o),
      skipColon_cons, hread, bind, Except.bind, keep]

/-- A directive is read back from any object that gives it. -/
theorem reads_readJson (w : Writing write) (room depth : Nat) {j : Json} {d : Directive}
    (h : d.SaidBy j) : Reads (readJson (room + 2)) (write depth j) d := by
  intro lead rest hlead _
  obtain ⟨fs, hperm, ms, rfl, hms⟩ := h
  obtain ⟨hnodup, hfold⟩ := foldl_of_perm hperm
  have hread : ∀ (p : Option String × List (String × Json)) (v : Json) (f : Field), v = f.value →
      (f.name = nodeNameField → p.1 = none) →
      Reads (fun cs => readMember (room + 1) p f.name (':' :: cs)) (write (depth + 1) v)
        (keep p f) := by
    rintro p _ f rfl hfirst
    exact reads_readMember w room (depth + 1) p f hfirst
  have hkeep : ∀ (p : Option String × List (String × Json)) (f g : Field), f.name ≠ g.name →
      (g.name = nodeNameField → p.1 = none) → g.name = nodeNameField → (keep p f).1 = none := by
    intro p f g hne hfirst hg
    cases f with
    | nodeName v => exact absurd hg.symm hne
    | handler => exact hfirst hg
    | setting o => exact hfirst hg
  have hmembers := readsMembers_of_fields (readMember (room + 1))
    (fun p f => f.name = nodeNameField → p.1 = none) hread hkeep hms hnodup (none, [])
    fun _ _ _ => rfl
  have hstart : Kept (none, []) ∅ [] := ⟨rfl, rfl⟩
  obtain ⟨later, hname, hsettings⟩ := hstart.foldl fs hnodup fun _ _ => List.not_mem_nil
  rw [hfold] at hname hsettings
  obtain ⟨body, hfound, hbody⟩ := w.reads_object depth hmembers hlead rest
  rw [readJson, hfound]
  simp only [bind, Except.bind, Nat.add_one_sub_one, hbody, hsettings, hname]

end readers

theorem members_eq (d : Directive) : d.members = d.fields.map fun f => (f.name, f.value) := by
  rw [members, fields, List.map_append, List.map_map, Settings.members_eq,
    apply_ite (List.map fun f : Field => (f.name, f.value))]
  rfl

theorem saidBy_json (d : Directive) : d.SaidBy d.json := by
  refine ⟨d.fields, Or.inl (.refl _), d.members, rfl, ?_⟩
  rw [members_eq, List.forall₂_map_left_iff, List.forall₂_same]
  exact fun f _ => ⟨rfl, rfl⟩

theorem saidBy_handler (d : Directive) : d.SaidBy d.handler := by
  refine ⟨.handler :: d.fields, Or.inr (.refl _), _, rfl, .cons ⟨rfl, rfl⟩ ?_⟩
  rw [members_eq, List.forall₂_map_left_iff, List.forall₂_same]
  exact fun f _ => ⟨rfl, rfl⟩

theorem SaidBy.sorted {d : Directive} {j : Json} (h : d.SaidBy j) : d.SaidBy j.sorted := by
  obtain ⟨fs, hperm, hfields⟩ := h
  have hvalues : ∀ (v : Json) (f : Field), v = f.value → v.sorted = f.value := by
    rintro _ f rfl
    cases f with
    | setting o => exact o.sorted_value
    | handler => rw [Field.value, Json.sorted] <;> simp
    | nodeName v => rw [Field.value, Json.sorted] <;> simp
  obtain ⟨gs, hgs, _, hsorted⟩ := hfields.sorted (fun v f => v = f.value) hvalues
  exact ⟨gs, hperm.imp hgs.trans hgs.trans, hsorted⟩

end Directive

/-- A value as it may be written: its members as they are or in the order of their names. -/
def Json.texts (j : Json) : List String :=
  [j.compact, j.pretty, j.sorted.compact, j.sorted.pretty]

namespace Directive

theorem ofJsonText_of_saidBy {d : Directive} {j : Json} (h : d.SaidBy j) :
    ∀ text ∈ j.texts, ofJsonText text = .ok d := by
  have hread : ∀ v : Json, d.SaidBy v → ofJsonText v.compact = .ok d ∧
      ofJsonText v.pretty = .ok d := fun v hv =>
    ⟨(reads_readJson Json.writing_chars 125 0 hv).whole,
      (reads_readJson Json.writing_prettyChars 125 0 hv).whole⟩
  obtain ⟨hcompact, hpretty⟩ := hread j h
  obtain ⟨hsortedCompact, hsortedPretty⟩ := hread j.sorted h.sorted
  simp only [Json.texts, List.forall_mem_cons]
  exact ⟨hcompact, hpretty, hsortedCompact, hsortedPretty, fun _ h => nomatch h⟩

end Directive

theorem mapM_of_forall₂ {ε α β : Type} {f : α → Except ε β} {xs : List α} {ys : List β}
    (h : List.Forall₂ (fun x y => f x = .ok y) xs ys) : xs.mapM f = .ok ys := by
  induction h with
  | nil => rfl
  | cons hf _ ih =>
    rw [List.mapM_cons, hf, ih]
    rfl

/-- A directive is read back from its own text and from its entry's. So the directives of a
document, read from their entries and registered one by one, register the same nodes. -/
theorem Configuration.provision_handlers (c : Configuration) :
    (∀ d : Directive, ∀ text ∈ d.json.texts ++ d.handler.texts,
      Directive.ofJsonText text = .ok d) ∧
      ∀ texts, List.Forall₂ (fun text d => text ∈ d.handler.texts) texts c.directives →
        ∀ r, ∃ q, (texts.mapM Directive.ofJsonText).map
            (fun ds => ds.foldl (fun q d => d.provision q) r) = .ok q ∧
          (∀ n, q.get? n = (c.provision r).get? n) ∧ q.sorted = (c.provision r).sorted := by
  refine ⟨fun d text htext => ?_, fun texts htexts r => ?_⟩
  · rcases List.mem_append.mp htext with hown | hentry
    · exact Directive.ofJsonText_of_saidBy d.saidBy_json text hown
    · exact Directive.ofJsonText_of_saidBy d.saidBy_handler text hentry
  · have hread : texts.mapM Directive.ofJsonText = .ok c.directives :=
      mapM_of_forall₂ (htexts.imp fun text d htext =>
        Directive.ofJsonText_of_saidBy d.saidBy_handler text htext)
    have hget : ∀ n, (c.directives.foldl (fun q d => d.provision q) r).get? n =
        (c.provision r).get? n := by
      intro n
      rw [get?_foldl_provision, get?_provision]
      rfl
    exact ⟨_, by rw [hread]; rfl, hget, Table.sorted_eq_of_get? hget⟩

def Configuration.twoSites : Configuration :=
  ⟨∅, [⟨"", { (∅ : Settings) with ephemeral := some false, tags := ["", "\""] }⟩,
    ⟨"web", { (∅ : Settings) with webui := some true, port := 65535 }⟩]⟩

/-- The entries of these directives, the second one with each member on a line of its own. -/
def twoHandlers : List String :=
  ["\x7b\"handler\":\"tailscale\",\"ephemeral\":false,\"tags\":[\"\",\"\\\"\"]\x7d",
    "\x7b\n  \"handler\": \"tailscale\",\n  \"node_name\": \"web\",\n" ++
      "  \"webui\": true,\n  \"port\": 65535\n\x7d"]

theorem Configuration.provision_twoSites :
    ∃ q, (twoHandlers.mapM Directive.ofJsonText).map
        (fun ds => ds.foldl (fun q d => d.provision q) ∅) = .ok q ∧
      q.get? Directive.defaultNode = some ⟨Directive.defaultNode,
        { (∅ : Settings) with ephemeral := some false, tags := ["", "\""] }⟩ := by
  have htexts : List.Forall₂ (fun text d => text ∈ d.handler.texts) twoHandlers
      twoSites.directives := .cons (by decide +kernel) (.cons (by decide +kernel) .nil)
  obtain ⟨q, hq, hget, _⟩ := twoSites.provision_handlers.2 _ htexts ∅
  exact ⟨q, hq, by rw [hget]; decide +kernel⟩

end NodeLayers
