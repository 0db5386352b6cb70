import NodeLayers.Command
import NodeLayers.Proofs.Entries
import NodeLayers.Proofs.Given
import NodeLayers.Proofs.Publishing
import NodeLayers.Proofs.ReadDirective

namespace NodeLayers

namespace App

theorem keyedByName_empty : (∅ : App).KeyedByName := by
  intro e he
  cases he

variable {a b : App}

theorem KeyedByName.set (h : a.KeyedByName) (s : Setting) : (a.set s).KeyedByName := by
  intro e he
  rw [nodes_set] at he
  exact h e he

theorem KeyedByName.putNode (h : a.KeyedByName) (node : Node) : (a.putNode node).KeyedByName :=
  Table.forall_insert h rfl

theorem KeyedByName.readEntry {c f : Cursor} (h : a.KeyedByName)
    (hr : a.readEntry c = (.ok b, f)) : b.KeyedByName := by
  unfold App.readEntry at hr
  split at hr
  next k _ =>
    cases hs : c.setting k with
    | mk result rest =>
      rw [hs] at hr
      cases result with
      | error e => cases hr
      | ok s => cases hr; exact h.set s
  next =>
    cases hn : Node.read c with
    | mk result rest =>
      rw [hn] at hr
      cases result with
      | error e => cases hr
      | ok node => cases hr; exact h.putNode node

theorem KeyedByName.readBlock {c : Cursor} (h : a.KeyedByName) :
    (a.readBlock c).record.KeyedByName := by
  fun_induction App.readBlock a c with
  | case1 => exact h
  | case2 => exact h
  | case3 a c d hd b f hs _ ih => exact ih (h.readEntry hs)

theorem keyedByName_of_read {c : Cursor} (hr : (App.read c).1 = .ok a) : a.KeyedByName := by
  cases hn : c.next? with
  | none =>
    rw [App.read, hn] at hr
    cases hr
  | some d =>
    obtain ⟨_, hrecord, _⟩ := read_eq_ok hn hr
    rw [← hrecord]
    exact keyedByName_empty.readBlock

end App

namespace Configuration

variable {d : Document} {c : Configuration} {source : Source} {text : String}

theorem keyedByName_of_ofDocument (h : ofDocument d = .ok c) : c.app.KeyedByName := by
  have happ := (ofDocument_eq_ok_iff.mp h).1
  revert happ
  cases hs : (d.filter Block.isGlobal).flatMap (·.named App.name) with
  | nil =>
    intro happ
    have hempty : ∅ = c.app := Except.ok.inj happ
    exact hempty ▸ App.keyedByName_empty
  | cons s segments =>
    intro happ
    exact App.keyedByName_of_read (readApp_eq_ok happ List.mem_cons_self).2

theorem ofText_eq_ok_iff : ofText source text = .ok c ↔ ∃ ts d,
    tokenize source text = .ok ts ∧ Document.ofTokens ts = .ok d ∧ ofDocument d = .ok c := by
  simp only [ofText, bind_eq_ok]
  constructor
  · rintro ⟨ts, ht, d, hd, hc⟩
    exact ⟨ts, d, ht, hd, hc⟩
  · rintro ⟨ts, d, ht, hd, hc⟩
    exact ⟨ts, ht, d, hd, hc⟩

/-- The global option comes from the global blocks and the directives from the sites, each whatever
the others say. -/
theorem ofDocument_apart (h : ofDocument d = .ok c) :
    ofDocument (d.filter Block.isGlobal) = .ok ⟨c.app, []⟩ ∧
      ofDocument (d.filter (!·.isGlobal)) = .ok ⟨∅, c.directives⟩ := by
  obtain ⟨happ, hdirectives⟩ := ofDocument_eq_ok_iff.mp h
  have hboth : ∀ b : Block, (b.isGlobal && !b.isGlobal) = false := fun b => Bool.and_not_self _
  have hswap : ∀ b : Block, (!b.isGlobal && b.isGlobal) = false := fun b => Bool.not_and_self _
  rw [ofDocument_eq_ok_iff, ofDocument_eq_ok_iff]
  simp only [List.filter_filter, Bool.and_self, hboth, hswap, List.filter_false, List.flatMap_nil]
  exact ⟨⟨happ, rfl⟩, rfl, hdirectives⟩

theorem forall₂_of_mapM {ε α β : Type} {f : α → Except ε β} {xs : List α} {ys : List β}
    (h : xs.mapM f = .ok ys) : List.Forall₂ (fun x y => f x = .ok y) xs ys := by
  induction xs generalizing ys with
  | nil => cases h; exact .nil
  | cons x xs ih =>
    rw [List.mapM_cons] at h
    obtain ⟨y, hy, hrest⟩ := bind_eq_ok.mp h
    obtain ⟨zs, hzs, hcons⟩ := bind_eq_ok.mp hrest
    cases hcons
    exact .cons hy (ih hzs)

/-- The directives of a document are what its sites' segments describe, in the order of the text. -/
theorem describes_of_ofDocument {ts : List Token} (hd : Document.ofTokens ts = .ok d)
    (h : ofDocument d = .ok c) :
    List.Forall₂ Segment.Describes ((d.filter (!·.isGlobal)).flatMap (·.named Directive.name))
      c.directives := by
  have hspelled : ∀ s ∈ (d.filter (!·.isGlobal)).flatMap (·.named Directive.name),
      s.isNamed Directive.name = true ∧ ∃ us, s.Spelled us := by
    intro s hs
    obtain ⟨b, hb, hsb⟩ := List.mem_flatMap.mp hs
    obtain ⟨hsegment, hname⟩ := List.mem_filter.mp hsb
    exact ⟨hname, (Document.spelled_ofTokens hd).segment (List.mem_filter.mp hb).1 hsegment⟩
  have hread := forall₂_of_mapM (ofDocument_eq_ok_iff.mp h).2
  refine ((List.forall₂_and_left _ _).mpr ⟨hspelled, hread⟩).imp fun s e hse => ?_
  obtain ⟨⟨hname, us, hs⟩, hr⟩ := hse
  exact Segment.describes_of_read hs hname hr

section

variable {n : String}

theorem exists_last?_iff : (∃ e, c.last? n = some e) ↔ ∃ e ∈ c.directives, e.effectiveName = n := by
  rw [← Option.ne_none_iff_exists', ne_eq, last?_eq_none_iff]
  push Not
  rfl

theorem mem_keys_provision_iff :
    n ∈ (c.provision ∅).keys ↔ ∃ e ∈ c.directives, e.effectiveName = n := by
  rw [Table.mem_keys_iff, get?_provision, ← exists_last?_iff]
  cases c.last? n <;> simp

theorem find_of_last? {e : Directive} (h : c.last? n = some e) :
    Resolution.find n (c.provision ∅) c.app = .site ⟨n, e.settings⟩ := by
  have hnode : e.node = ⟨n, e.settings⟩ := by rw [Directive.node, effectiveName_of_last? h]
  rw [Resolution.find, get?_provision, h, ← hnode]
  rfl

theorem find_of_none (h : c.last? n = none) :
    Resolution.find n (c.provision ∅) c.app =
      match c.app.nodes.get? n with
      | some node => .named node
      | none => .defaults c.app := by
  rw [Resolution.find, get?_provision, h]
  rfl

end

/-- A node is looked up as the last directive for it describes it, else as its named block, else in
the defaults; nothing of one layer gets into another. -/
theorem find_provision (h : ofText source text = .ok c) (n : String) :
    ∃ ts document, tokenize source text = .ok ts ∧ Document.ofTokens ts = .ok document ∧
      ofDocument (document.filter Block.isGlobal) = .ok ⟨c.app, []⟩ ∧
      ofDocument (document.filter (!·.isGlobal)) = .ok ⟨∅, c.directives⟩ ∧
      List.Forall₂ Segment.Describes
        ((document.filter (!·.isGlobal)).flatMap (·.named Directive.name)) c.directives ∧
      ((∃ node, Resolution.find n (c.provision ∅) c.app = .site node) ↔
        ∃ e ∈ c.directives, e.effectiveName = n) ∧
      (∃ members, Question.sites.answer c = .object members ∧
        (n ∈ members.map Prod.fst ↔ ∃ e ∈ c.directives, e.effectiveName = n)) ∧
      (∀ before e after, c.directives = before ++ e :: after → e.effectiveName = n →
        (∀ later ∈ after, later.effectiveName ≠ n) →
        Resolution.find n (c.provision ∅) c.app = .site ⟨n, e.settings⟩) ∧
      ((∀ e ∈ c.directives, e.effectiveName ≠ n) →
        ((∃ node, Resolution.find n (c.provision ∅) c.app = .named node) ↔ n ∈ c.app.nodes.keys) ∧
        (∀ node, c.app.nodes.get? n = some node →
          Resolution.find n (c.provision ∅) c.app = .named node ∧ node.name = n) ∧
        (n ∉ c.app.nodes.keys → Resolution.find n (c.provision ∅) c.app = .defaults c.app)) := by
  obtain ⟨ts, d, ht, hd, hc⟩ := ofText_eq_ok_iff.mp h
  obtain ⟨hglobal, hsites⟩ := ofDocument_apart hc
  have hkeyed := keyedByName_of_ofDocument hc
  refine ⟨ts, d, ht, hd, hglobal, hsites, describes_of_ofDocument hd hc, ?_, ?_, ?_, ?_⟩
  · rw [← exists_last?_iff]
    cases hlast : c.last? n with
    | some e => simp [find_of_last? hlast]
    | none =>
      rw [find_of_none hlast]
      cases c.app.nodes.get? n <;> simp
  · refine ⟨_, rfl, ?_⟩
    rw [List.map_map, ← mem_keys_provision_iff]
    exact ((c.provision ∅).perm_sorted.map Prod.fst).mem_iff
  · intro before e after hsplit hname hafter
    exact find_of_last? (last?_eq_some_iff.mpr ⟨hname, before, after, hsplit, hafter⟩)
  · intro hnone
    rw [find_of_none (last?_eq_none_iff.mpr hnone), Table.mem_keys_iff]
    refine ⟨?_, fun node hnode => ?_, fun hkey => ?_⟩
    · cases c.app.nodes.get? n <;> simp
    · rw [hnode]
      exact ⟨rfl, hkeyed (n, node) (Table.get?_eq_some_iff.mp hnode)⟩
    · cases hget : c.app.nodes.get? n with
      | none => rfl
      | some node => exact absurd ⟨node, hget⟩ hkey

/-- A node that the global option and two sites describe, each in another way. -/
def layered : Configuration where
  app :=
    { (∅ : App) with
      authKey := "base"
      nodes := ⟨[("edge", ⟨"edge", { (∅ : Settings) with port := 1 }⟩)], by decide⟩ }
  directives :=
    [⟨"edge", { (∅ : Settings) with webui := some true }⟩,
      ⟨"edge", { (∅ : Settings) with hostname := "h" }⟩, ⟨"default", ∅⟩]

def layeredText : String :=
  "\x7b\n tailscale \x7b\n auth_key base\n edge \x7b\n port 1\n \x7d\n \x7d\n\x7d\n" ++
    "a \x7b\n tailscale edge \x7b\n webui\n \x7d\n\x7d\n" ++
    "b \x7b\n tailscale edge \x7b\n hostname h\n \x7d\n tailscale\n\x7d\n"

theorem find_layered :
    ofText none layeredText = .ok layered ∧
      Resolution.find "edge" (layered.provision ∅) layered.app =
        .site ⟨"edge", { (∅ : Settings) with hostname := "h" }⟩ ∧
      Resolution.find "other" (layered.provision ∅) layered.app = .defaults layered.app := by
  have h : ofText none layeredText = .ok layered := by decide +kernel
  obtain ⟨_, _, _, _, _, _, _, _, _, hsite, _⟩ := find_provision h "edge"
  obtain ⟨_, _, _, _, _, _, _, _, _, _, hnone⟩ := find_provision h "other"
  refine ⟨h, ?_, ?_⟩
  · exact hsite [⟨"edge", { (∅ : Settings) with webui := some true }⟩] _ [⟨"default", ∅⟩] rfl rfl
      (by decide)
  · exact (hnone (by decide)).2.2 (by decide)

end Configuration

end NodeLayers
