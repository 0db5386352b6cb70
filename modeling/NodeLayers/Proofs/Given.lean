import NodeLayers.Proofs.LaidBlocks

namespace NodeLayers

/-- The options that say anything, in the order of the fields. -/
def Settings.given (s : Settings) : List Setting :=
  (if s.authKey = "" then [] else [.authKey s.authKey]) ++
    (if s.controlUrl = "" then [] else [.controlUrl s.controlUrl]) ++
    (s.ephemeral.map Setting.ephemeral).toList ++
    (s.webui.map Setting.webui).toList ++
    (if s.hostname = "" then [] else [.hostname s.hostname]) ++
    (if s.port = 0 then [] else [.port s.port]) ++
    (if s.stateDir = "" then [] else [.stateDir s.stateDir]) ++
    (if s.tags = [] then [] else [.tags s.tags])

def App.given (a : App) : List Setting :=
  (if a.authKey = "" then [] else [.authKey a.authKey]) ++
    (if a.controlUrl = "" then [] else [.controlUrl a.controlUrl]) ++
    (if a.ephemeral = false then [] else [.ephemeral a.ephemeral]) ++
    (if a.stateDir = "" then [] else [.stateDir a.stateDir]) ++
    (if a.webui = false then [] else [.webui a.webui]) ++
    (if a.tags = [] then [] else [.tags a.tags])

def App.entries (a : App) : List App.Entry :=
  a.given.map .setting ++ a.nodes.values.map .node

theorem foldl_unless {τ : Type} {f : τ → Setting → τ} {r : τ} {p : Prop} [Decidable p]
    {s : Setting} (h : p → f r s = r) : (if p then [] else [s]).foldl f r = f r s := by
  by_cases hp : p
  · rw [if_pos hp]
    exact (h hp).symm
  · rw [if_neg hp]
    rfl

theorem foldl_append_unless {τ : Type} {f : τ → Setting → τ} {r u : τ} {xs : List Setting}
    (hx : xs.foldl f r = u) {p : Prop} [Decidable p] {s : Setting} (h : p → f u s = u) :
    (xs ++ if p then [] else [s]).foldl f r = f u s := by
  rw [List.foldl_append, hx, foldl_unless h]

theorem foldl_append_flag {τ : Type} {f : τ → Setting → τ} {r u v : τ} {xs : List Setting}
    (hx : xs.foldl f r = u) {o : Flag} {s : Bool → Setting} (hn : o = none → u = v)
    (hs : ∀ b, o = some b → f u (s b) = v) :
    (xs ++ (o.map s).toList).foldl f r = v := by
  rw [List.foldl_append, hx]
  cases o with
  | none => exact hn rfl
  | some b => exact hs b rfl

/-- Setting what a record says on top of nothing gives the record. -/
theorem Settings.foldl_given (s : Settings) : s.given.foldl Settings.set ∅ = s := by
  have hkey := foldl_unless (f := Settings.set) (r := ∅) (s := .authKey s.authKey)
    (p := s.authKey = "") (fun h => by rw [h]; rfl)
  have hurl := foldl_append_unless hkey (s := .controlUrl s.controlUrl) (p := s.controlUrl = "")
    (fun h => by rw [h]; rfl)
  have hephemeral := foldl_append_flag hurl (o := s.ephemeral) (s := Setting.ephemeral)
    (v := ⟨s.authKey, s.controlUrl, s.ephemeral, none, "", 0, "", []⟩)
    (fun h => by rw [h]; rfl) (fun b h => by rw [h]; rfl)
  have hwebui := foldl_append_flag hephemeral (o := s.webui) (s := Setting.webui)
    (v := ⟨s.authKey, s.controlUrl, s.ephemeral, s.webui, "", 0, "", []⟩)
    (fun h => by rw [h]) (fun b h => by rw [h]; rfl)
  have hhost := foldl_append_unless hwebui (s := .hostname s.hostname) (p := s.hostname = "")
    (fun h => by rw [h]; rfl)
  have hport := foldl_append_unless hhost (s := .port s.port) (p := s.port = 0)
    (fun h => by rw [h]; rfl)
  have hdir := foldl_append_unless hport (s := .stateDir s.stateDir) (p := s.stateDir = "")
    (fun h => by rw [h]; rfl)
  exact foldl_append_unless hdir (s := .tags s.tags) (fun h => by rw [h]; rfl)

theorem App.foldl_given (a : App) : a.given.foldl App.set ∅ = { a with nodes := ∅ } := by
  have hkey := foldl_unless (f := App.set) (r := ∅) (s := .authKey a.authKey)
    (p := a.authKey = "") (fun h => by rw [h]; rfl)
  have hurl := foldl_append_unless hkey (s := .controlUrl a.controlUrl) (p := a.controlUrl = "")
    (fun h => by rw [h]; rfl)
  have hephemeral := foldl_append_unless hurl (s := .ephemeral a.ephemeral)
    (p := a.ephemeral = false) (fun h => by rw [h]; rfl)
  have hdir := foldl_append_unless hephemeral (s := .stateDir a.stateDir) (p := a.stateDir = "")
    (fun h => by rw [h]; rfl)
  have hwebui := foldl_append_unless hdir (s := .webui a.webui) (p := a.webui = false)
    (fun h => by rw [h]; rfl)
  exact foldl_append_unless hwebui (s := .tags a.tags) (fun h => by rw [h]; rfl)

theorem putEntry_of_not_mem {α : Type} {k : String} (v : α) {es : List (String × α)}
    (h : k ∉ es.map Prod.fst) : putEntry k v es = es ++ [(k, v)] := by
  induction es with
  | nil => rfl
  | cons e es ih =>
    obtain ⟨he, hes⟩ := not_or.mp (fun hm => h (List.mem_cons.mpr hm))
    have hk : ¬e.1 = k := fun heq => he heq.symm
    rw [putEntry, if_neg hk, ih hes]
    rfl

/-- Values under names that are new go behind the values that are there. -/
theorem Table.foldl_insert {α : Type} (es : List (String × α)) (t : Table α)
    (h : ((t.entries ++ es).map Prod.fst).Nodup) :
    es.foldl (fun t e => t.insert e.1 e.2) t = ⟨t.entries ++ es, h⟩ := by
  induction es generalizing t with
  | nil => simp
  | cons e es ih =>
    have hnew : e.1 ∉ t.entries.map Prod.fst := by
      rw [List.map_append, List.map_cons] at h
      exact fun hm => (List.nodup_append.mp h).2.2 _ hm _ List.mem_cons_self rfl
    have hput : (t.insert e.1 e.2).entries = t.entries ++ [e] := putEntry_of_not_mem e.2 hnew
    have hnodup : (((t.insert e.1 e.2).entries ++ es).map Prod.fst).Nodup := by
      rw [hput, List.append_assoc]
      exact h
    rw [List.foldl_cons, ih (t.insert e.1 e.2) hnodup]
    simp [hput]

/-- Every named block stands under the name of its node. -/
def App.KeyedByName (a : App) : Prop :=
  ∀ e ∈ a.nodes.entries, e.2.name = e.1

instance (a : App) : Decidable a.KeyedByName :=
  inferInstanceAs (Decidable (∀ e ∈ a.nodes.entries, e.2.name = e.1))

theorem App.foldl_putNode {es : List (String × Node)} (hn : ∀ e ∈ es, e.2.name = e.1) (a : App) :
    (es.map Prod.snd).foldl App.putNode a =
      { a with nodes := es.foldl (fun t e => t.insert e.1 e.2) a.nodes } := by
  induction es generalizing a with
  | nil => rfl
  | cons e es ih =>
    have hname := hn e List.mem_cons_self
    rw [List.map_cons, List.foldl_cons, ih (fun f hf => hn f (List.mem_cons_of_mem e hf)),
      App.putNode, hname]
    rfl

/-- Applying a global option's entries to nothing gives the option. -/
theorem App.foldl_entries (a : App) (hn : a.KeyedByName) : a.entries.foldl App.put ∅ = a := by
  have hset : (a.given.map App.Entry.setting).foldl App.put ∅ = { a with nodes := ∅ } := by
    rw [List.foldl_map]
    exact a.foldl_given
  have hput := App.foldl_putNode hn { a with nodes := ∅ }
  rw [Table.foldl_insert a.nodes.entries ∅ a.nodes.nodup_keys] at hput
  rw [App.entries, List.foldl_append, hset, List.foldl_map]
  exact hput

theorem mem_unless {p : Prop} [Decidable p] {s t : Setting}
    (h : s ∈ if p then [] else [t]) : s = t := by
  by_cases hp : p
  · rw [if_pos hp] at h
    cases h
  · rw [if_neg hp] at h
    exact List.mem_singleton.mp h

theorem App.takes_given {a : App} {s : Setting} (h : s ∈ a.given) (b : App) :
    b.takes s.keyword = true := by
  simp only [App.given, List.mem_append] at h
  rcases h with ((((h | h) | h) | h) | h) | h
  all_goals
    obtain rfl := mem_unless h
    rfl

end NodeLayers
