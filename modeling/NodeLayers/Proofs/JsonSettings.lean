import NodeLayers.JsonRecord
import NodeLayers.Proofs.Given
import NodeLayers.Proofs.JsonContainers
import Mathlib.Data.List.Nodup
import Mathlib.Data.List.Perm.Basic

namespace NodeLayers

/-- The value of the member that gives this option. -/
def Setting.value : Setting → Json
  | .authKey v | .controlUrl v | .hostname v | .stateDir v => .text v
  | .ephemeral b | .webui b => .bool b
  | .port p => .integer p.toNat
  | .tags vs => .list (vs.map .text)

def Setting.name (o : Setting) : String :=
  o.keyword.text

def Setting.member (o : Setting) : String × Json :=
  (o.name, o.value)

section readers

variable {write : Nat → Json → List Char}

theorem Reads.map {α β : Type} {read : Reader α} {text : List Char} {a : α}
    (h : Reads read text a) (f : α → β) :
    Reads (fun cs => do let (x, rest) ← read cs; .ok (f x, rest)) text (f a) := by
  intro lead rest hlead hrest
  simp only [h lead rest hlead hrest, bind, Except.bind]

theorem reads_readFlag (room : Nat) (b : Bool) :
    Reads (readFlag room) (Json.scalarChars (.bool b)) (some b) := by
  intro lead rest hlead hrest
  rw [readFlag, readValue]
  simp only [reads_bool b lead rest hlead hrest, bind, Except.bind]
  rfl

theorem reads_readSwitch (b : Bool) :
    Reads readSwitch (Json.scalarChars (.bool b)) (some b) :=
  (reads_bool b).convert rfl

theorem asPort_toNat (p : UInt16) : Found.asPort (.integer p.toNat) = .ok p := by
  have hlt := p.toNat_lt
  have hrange : 0 ≤ (p.toNat : Int) ∧ (p.toNat : Int) < 65536 := by omega
  rw [Found.asPort, if_pos hrange]
  simp

theorem reads_asText (w : Writing write) (depth : Nat) (v : String) :
    Reads (readAs Found.asText) (write depth (.text v)) v := by
  rw [w.scalar depth (.text v) trivial]
  exact (reads_text v).convert rfl

/-- One more tag behind those before it. -/
def readTag (tags : List String) (cs : List Char) : Except JsonError (Parsed (List String)) := do
  let (tag, rest) ← readAs Found.asText cs
  .ok (tags ++ [tag], rest)

theorem readsParts_tags (w : Writing write) (depth : Nat) (vs before : List String) :
    ReadsParts readTag before ((vs.map Json.text).map (write depth)) (before ++ vs) := by
  have hread : ∀ tags v, Reads (readTag tags) (write depth (.text v)) (tags ++ [id v]) :=
    fun tags v => (reads_asText w depth v).map (tags ++ [·])
  have hparts := readsParts_append hread vs before
  rw [List.map_id] at hparts
  rw [List.map_map]
  exact hparts

theorem reads_readTags (w : Writing write) (depth : Nat) (vs : List String) :
    Reads readTags (write depth (.list (vs.map .text))) vs := by
  intro lead rest hlead _
  obtain ⟨body, hfound, hitems⟩ :=
    w.reads_list depth (readsParts_tags w (depth + 1) vs []) (w.startsPart_texts (depth + 1) vs)
      hlead rest
  rw [readTags, hfound]
  exact hitems

/-- What an option says is read back from its value. -/
theorem reads_readSetting (w : Writing write) {flag : Reader Flag}
    (hflag : ∀ b, Reads flag (Json.scalarChars (.bool b)) (some b)) (depth : Nat) (o : Setting) :
    Reads (readSetting flag o.keyword) (write depth o.value) (some o) := by
  have htext := reads_asText w depth
  have hbool : ∀ b, Reads flag (write depth (.bool b)) (some b) := by
    intro b
    rw [w.scalar depth (.bool b) trivial]
    exact hflag b
  cases o with
  | authKey v => exact (htext v).map (some ∘ Setting.authKey)
  | controlUrl v => exact (htext v).map (some ∘ Setting.controlUrl)
  | hostname v => exact (htext v).map (some ∘ Setting.hostname)
  | stateDir v => exact (htext v).map (some ∘ Setting.stateDir)
  | ephemeral b => exact (hbool b).map (Option.map Setting.ephemeral)
  | webui b => exact (hbool b).map (Option.map Setting.webui)
  | port p =>
    have hport : Reads (readAs Found.asPort) (write depth (.integer p.toNat)) p := by
      have hlt := p.toNat_lt
      rw [w.scalar depth (.integer p.toNat) trivial]
      exact (reads_integer (Nat.lt_trans hlt (by decide))).convert (asPort_toNat p)
    exact hport.map (some ∘ Setting.port)
  | tags vs => exact (reads_readTags w depth vs).map (some ∘ Setting.tags)

end readers

section fields

variable {φ τ : Type} {name : φ → String} {r : Json → φ → Prop} {j : Json} {fs : List φ}

/-- The value is an object, with one member after the other for these fields. -/
def Json.HasFields (j : Json) (name : φ → String) (r : Json → φ → Prop) (fs : List φ) : Prop :=
  ∃ ms, j = .object ms ∧ List.Forall₂ (fun m f => m.1 = name f ∧ r m.2 f) ms fs

theorem Json.sortedMembers_eq (ms : List (String × Json)) :
    sortedMembers ms = ms.map fun m => (m.1, m.2.sorted) := by
  induction ms with
  | nil => rw [sortedMembers]; rfl
  | cons m ms ih => rw [sortedMembers, ih]; rfl

theorem map_fst_of_fields {ms : List (String × Json)}
    (h : List.Forall₂ (fun m f => m.1 = name f ∧ r m.2 f) ms fs) :
    ms.map Prod.fst = fs.map name := by
  induction h with
  | nil => rfl
  | cons hm _ ih => rw [List.map_cons, List.map_cons, hm.1, ih]

/-- Sorting an object brings the same fields in the order of their names. -/
theorem Json.HasFields.sorted (h : j.HasFields name r fs) (r' : Json → φ → Prop)
    (hr : ∀ v f, r v f → r' v.sorted f) :
    ∃ gs : List φ, gs.Perm fs ∧ gs.Pairwise (fun f g => name f ≤ name g) ∧
      j.sorted.HasFields name r' gs := by
  obtain ⟨ms, rfl, hms⟩ := h
  have hmapped : List.Forall₂ (fun m f => m.1 = name f ∧ r' m.2 f)
      (ms.map fun m => (m.1, m.2.sorted)) fs := by
    rw [List.forall₂_map_left_iff]
    exact hms.imp fun m f hm => ⟨hm.1, hr m.2 f hm.2⟩
  have hperm := sortedByKey_perm (ms.map fun m => (m.1, m.2.sorted))
  obtain ⟨gs, hgs, hfs⟩ := List.perm_comp_forall₂ hperm hmapped
  refine ⟨gs, hfs, ?_, sortedByKey (ms.map fun m => (m.1, m.2.sorted)), ?_, hgs⟩
  · have hsorted := pairwise_sortedByKey (ms.map fun m => (m.1, m.2.sorted))
    rw [← List.pairwise_map (f := Prod.fst), map_fst_of_fields hgs, List.pairwise_map] at hsorted
    exact hsorted
  · rw [sorted, sortedMembers_eq]

/-- Fields of different names that are ready to be read are read one after the other. -/
theorem readsMembers_of_fields {write : Nat → Json → List Char} {depth : Nat}
    {add : τ → φ → τ} (member : τ → String → Reader τ) (ready : τ → φ → Prop)
    (hread : ∀ t v f, r v f → ready t f →
      Reads (fun cs => member t (name f) (':' :: cs)) (write depth v) (add t f))
    (hkeep : ∀ t f g, name f ≠ name g → ready t g → ready (add t f) g)
    {ms : List (String × Json)} (h : List.Forall₂ (fun m f => m.1 = name f ∧ r m.2 f) ms fs)
    (hnodup : (fs.map name).Nodup) (t : τ) (hready : ∀ f ∈ fs, ready t f) :
    ReadsMembers member t (ms.map fun m => (m.1, write depth m.2)) (fs.foldl add t) := by
  induction h generalizing t with
  | nil => exact .nil
  | @cons m f ms fs hm _ ih =>
    obtain ⟨hname, hv⟩ := hm
    rw [List.map_cons, List.nodup_cons] at hnodup
    have hlater : ∀ g ∈ fs, ready (add t f) g := by
      intro g hg
      refine hkeep t f g (fun heq => hnodup.1 ?_) (hready g (List.mem_cons_of_mem f hg))
      exact heq ▸ List.mem_map_of_mem hg
    rw [List.map_cons, hname]
    exact .cons (hread t m.2 f hv (hready f List.mem_cons_self)) (ih hnodup.2 (add t f) hlater)

/-- Fields that only change their own part of a record may be put into it in any order. -/
theorem foldl_put_perm {put : τ → φ → τ} {gs : List φ}
    (hcomm : ∀ t f g, name f ≠ name g → put (put t f) g = put (put t g) f) (h : fs.Perm gs)
    (hnodup : (fs.map name).Nodup) (t : τ) : fs.foldl put t = gs.foldl put t := by
  refine h.foldl_eq' (fun f hf g hg t => ?_) t
  by_cases heq : f = g
  · rw [heq]
  · exact hcomm t f g fun hname => heq (List.inj_on_of_nodup_map hnodup hf hg hname)

/-- What was read of a record, after one more field. -/
def Partly.put (put : τ → φ → τ) (name : φ → String) (p : Partly τ) (f : φ) : Partly τ :=
  ⟨put p.record f, name f :: p.seen⟩

theorem Partly.record_foldl_put (put : τ → φ → τ) (name : φ → String) (fs : List φ) (p : Partly τ) :
    (fs.foldl (Partly.put put name) p).record = fs.foldl put p.record := by
  induction fs generalizing p with
  | nil => rfl
  | cons f fs ih => exact ih (p.put put name f)

theorem Partly.not_mem_seen_put {put : τ → φ → τ} {name : φ → String} (p : Partly τ) (f g : φ)
    (hne : name f ≠ name g) (h : name g ∉ p.seen) : name g ∉ (p.put put name f).seen :=
  fun hmem => (List.mem_cons.mp hmem).elim (fun heq => hne heq.symm) h

end fields

/-- The value is an object that gives these settings, each option in one member. -/
def Json.SaysSettings (j : Json) (s : Settings) : Prop :=
  ∃ os : List Setting, os.Perm s.given ∧ j.HasFields Setting.name (fun v o => v = o.value) os

theorem skipColon_cons (cs : List Char) : skipColon (':' :: cs) = .ok cs := rfl

theorem Setting.sorted_value (o : Setting) : o.value.sorted = o.value := by
  have hitems : ∀ vs : List String, Json.sortedItems (vs.map .text) = vs.map .text := by
    intro vs
    induction vs with
    | nil => rw [List.map_nil, Json.sortedItems]
    | cons v vs ih => rw [List.map_cons, Json.sortedItems, ih, Json.sorted] <;> simp
  cases o with
  | tags vs => rw [value, Json.sorted, hitems]
  | _ => rw [value, Json.sorted] <;> simp

section members

variable {setting : String → Setting} {switch : Bool → Setting}

theorem textMember_eq (k : Keyword) (v : String)
    (h : ∀ v, (setting v).member = (k.text, .text v)) :
    textMember k v = (if v = "" then [] else [setting v]).map Setting.member := by
  rw [textMember, apply_ite (List.map Setting.member), List.map_nil, List.map_singleton, h]

theorem flagMember_eq (k : Keyword) (f : Flag)
    (h : ∀ b, (switch b).member = (k.text, .bool b)) :
    flagMember k f = (f.map switch).toList.map Setting.member := by
  cases f with
  | none => rfl
  | some b => exact congrArg (fun m => [m]) (h b).symm

theorem switchMember_eq (k : Keyword) (b : Bool)
    (h : ∀ b, (switch b).member = (k.text, .bool b)) :
    switchMember k b = (if b = false then [] else [switch b]).map Setting.member := by
  cases b with
  | false => rfl
  | true => exact congrArg (fun m => [m]) (h true).symm

theorem portMember_eq (p : UInt16) :
    portMember p = (if p = 0 then [] else [.port p]).map Setting.member := by
  rw [portMember, apply_ite (List.map Setting.member)]
  rfl

theorem tagsMember_eq (vs : List String) :
    tagsMember vs = (if vs = [] then [] else [.tags vs]).map Setting.member := by
  cases vs <;> rfl

theorem keyword_unless_sublist (p : Prop) [Decidable p] (o : Setting) :
    ((if p then [] else [o]).map Setting.keyword).Sublist [o.keyword] := by
  split
  · exact List.nil_sublist _
  · exact List.Sublist.refl _

end members

namespace Settings

theorem reads_readMember {write : Nat → Json → List Char} (w : Writing write) (room depth : Nat)
    (p : Partly Settings) (o : Setting) (hnew : o.name ∉ p.seen) :
    Reads (fun cs => readMember room p o.name (':' :: cs)) (write depth o.value)
      (p.put Settings.set Setting.name o) := by
  intro lead rest hlead hrest
  have hset := reads_readSetting w (reads_readFlag room) depth o lead rest hlead hrest
  have hkeyword : Keyword.ofText? o.name = some o.keyword := Keyword.ofText?_eq_some.mpr rfl
  simp only [readMember, hkeyword, Partly.note, if_neg hnew, skipColon_cons, readField, hset, bind,
    Except.bind, setOption]
  rfl

theorem set_right_comm (s : Settings) (o p : Setting) (h : o.name ≠ p.name) :
    (s.set o).set p = (s.set p).set o := by
  cases o <;> cases p <;> first | rfl | exact absurd rfl h

theorem members_eq (s : Settings) : s.members = s.given.map Setting.member := by
  simp only [members, given, List.map_append]
  rw [textMember_eq .authKey, textMember_eq .controlUrl, textMember_eq .hostname,
    textMember_eq .stateDir, flagMember_eq .ephemeral, flagMember_eq .webui, portMember_eq,
    tagsMember_eq]
  all_goals exact fun _ => rfl

theorem keywords_given (s : Settings) : (s.given.map Setting.keyword).Sublist fieldOrder := by
  have hflag : ∀ (f : Flag) (setting : Bool → Setting) (k : Keyword),
      (∀ b, (setting b).keyword = k) →
      ((f.map setting).toList.map Setting.keyword).Sublist [k] := by
    intro f setting k hk
    cases f with
    | none => exact List.nil_sublist _
    | some b => rw [← hk b]; exact List.Sublist.refl _
  simp only [given, List.map_append]
  exact (((((((keyword_unless_sublist _ _).append (keyword_unless_sublist _ _)).append
    (hflag _ _ .ephemeral fun _ => rfl)).append (hflag _ _ .webui fun _ => rfl)).append
    (keyword_unless_sublist _ _)).append (keyword_unless_sublist _ _)).append
    (keyword_unless_sublist _ _)).append (keyword_unless_sublist _ _)

theorem nodup_names_given (s : Settings) : (s.given.map Setting.name).Nodup := by
  have hnames := (s.keywords_given.map Keyword.text).nodup (by decide)
  rwa [List.map_map] at hnames

/-- Settings are read back from any object that gives them. -/
theorem reads_readJson {write : Nat → Json → List Char} (w : Writing write) (room depth : Nat)
    {j : Json} {s : Settings} (h : j.SaysSettings s) :
    Reads (readJson room) (write depth j) s := by
  intro lead rest hlead _
  obtain ⟨os, hperm, ms, rfl, hms⟩ := h
  have hnodup := (hperm.map Setting.name).nodup_iff.mpr s.nodup_names_given
  have hread : ∀ (p : Partly Settings) (v : Json) (o : Setting), v = o.value → o.name ∉ p.seen →
      Reads (fun cs => readMember (room - 1) p o.name (':' :: cs)) (write (depth + 1) v)
        (p.put Settings.set Setting.name o) := by
    rintro p _ o rfl hnew
    exact reads_readMember w (room - 1) (depth + 1) p o hnew
  have hmembers := readsMembers_of_fields (readMember (room - 1)) (fun p o => o.name ∉ p.seen) hread
    Partly.not_mem_seen_put hms hnodup ⟨∅, []⟩ fun _ _ => List.not_mem_nil
  have hfold : os.foldl Settings.set ∅ = s := by
    rw [foldl_put_perm set_right_comm hperm hnodup, foldl_given]
  obtain ⟨body, hfound, hbody⟩ := w.reads_object depth hmembers hlead rest
  rw [readJson, hfound]
  simp only [bind, Except.bind, hbody, Partly.record_foldl_put, hfold]

theorem saysSettings_json (s : Settings) : s.json.SaysSettings s := by
  refine ⟨s.given, .refl _, s.members, rfl, ?_⟩
  rw [members_eq, List.forall₂_map_left_iff, List.forall₂_same]
  exact fun o _ => ⟨rfl, rfl⟩

end Settings

theorem Json.SaysSettings.sorted {j : Json} {s : Settings} (h : j.SaysSettings s) :
    j.sorted.SaysSettings s := by
  obtain ⟨os, hperm, hfields⟩ := h
  have hvalues : ∀ (v : Json) (o : Setting), v = o.value → v.sorted = o.value := by
    rintro _ o rfl
    exact o.sorted_value
  obtain ⟨qs, hqs, _, hsorted⟩ := hfields.sorted (fun v o => v = o.value) hvalues
  exact ⟨qs, hqs.trans hperm, hsorted⟩

end NodeLayers
