import NodeLayers.Session
import NodeLayers.Proofs.JsonContainers
import NodeLayers.Proofs.Precedence

namespace NodeLayers

section readers

variable {σ : Type} {P : σ → Prop} {close : Char} {part : σ → Reader σ} {s t : σ}
  {cs rest : List Char}

/-- What every part keeps is kept by all parts together. -/
theorem separatedFrom_keeps
    (hpart : ∀ {s cs t rest}, P s → part s cs = .ok (t, rest) → P t) {fuel : Nat} (hs : P s)
    (h : separatedFrom close part fuel s cs = .ok (t, rest)) : P t := by
  induction fuel generalizing s cs with
  | zero => cases h
  | succ fuel ih =>
    rw [separatedFrom] at h
    obtain ⟨⟨u, after⟩, hu, hrest⟩ := Configuration.bind_eq_ok.mp h
    have hkept := hpart hs hu
    simp only at hrest
    split at hrest
    next => cases hrest
    next c more _ =>
      by_cases hcomma : c = ','
      · rw [if_pos hcomma] at hrest
        exact ih hkept hrest
      · rw [if_neg hcomma] at hrest
        by_cases hclose : c = close
        · rw [if_pos hclose] at hrest
          cases hrest
          exact hkept
        · rw [if_neg hclose] at hrest
          cases hrest

theorem readSeparated_keeps
    (hpart : ∀ {s cs t rest}, P s → part s cs = .ok (t, rest) → P t) (hs : P s)
    (h : readSeparated close part s cs = .ok (t, rest)) : P t := by
  unfold readSeparated at h
  split at h
  next => exact separatedFrom_keeps hpart hs h
  next c more _ =>
    by_cases hclose : c = close
    · rw [if_pos hclose] at h
      cases h
      exact hs
    · rw [if_neg hclose] at h
      exact separatedFrom_keeps hpart hs h

theorem readItems_keeps {item : σ → Reader σ}
    (hitem : ∀ {s cs t rest}, P s → item s cs = .ok (t, rest) → P t) (hs : P s)
    (h : readItems item s cs = .ok (t, rest)) : P t := by
  rw [readItems_eq] at h
  exact readSeparated_keeps hitem hs h

theorem readMembers_keeps {member : σ → String → Reader σ}
    (hmember : ∀ {s name cs t rest}, P s → member s name cs = .ok (t, rest) → P t) (hs : P s)
    (h : readMembers member s cs = .ok (t, rest)) : P t := by
  rw [readMembers_eq] at h
  refine readSeparated_keeps (fun {s cs t rest} hs hpart => ?_) hs h
  obtain ⟨⟨name, after⟩, _, hread⟩ := Configuration.bind_eq_ok.mp hpart
  exact hmember hs hread

end readers

namespace App

variable {a b : App} {room : Nat} {cs rest : List Char}

/-- Every node read from an object gets the name under which it stands there. -/
theorem keyed_of_readNodes {t : Table Node} (h : readNodes room cs = .ok (t, rest)) :
    ∀ e ∈ t.entries, e.2.name = e.1 := by
  obtain ⟨⟨f, body⟩, _, hread⟩ := Configuration.bind_eq_ok.mp h
  cases f with
  | object =>
    refine readMembers_keeps (P := fun t => ∀ e ∈ t.entries, e.2.name = e.1)
      (fun {t name cs u rest} ht hnode => ?_) (by simp) hread
    obtain ⟨after, _, hnode⟩ := Configuration.bind_eq_ok.mp hnode
    obtain ⟨⟨settings, more⟩, _, hinsert⟩ := Configuration.bind_eq_ok.mp hnode
    cases hinsert
    exact Table.forall_insert ht rfl
  | _ => cases hread

theorem KeyedByName.setOption (h : a.KeyedByName) (o : Option Setting) :
    KeyedByName (NodeLayers.setOption a o) := by
  cases o with
  | none => exact h
  | some setting => exact h.set setting

theorem KeyedByName.readField {field : Option Keyword} (h : a.KeyedByName)
    (hr : App.readField room a field cs = .ok (b, rest)) : b.KeyedByName := by
  cases field with
  | none =>
    obtain ⟨⟨nodes, after⟩, hnodes, hb⟩ := Configuration.bind_eq_ok.mp hr
    cases hb
    exact keyed_of_readNodes hnodes
  | some k =>
    obtain ⟨⟨setting, after⟩, _, hb⟩ := Configuration.bind_eq_ok.mp hr
    cases hb
    exact h.setOption setting

theorem KeyedByName.readMember {p q : Partly App} {name : String} (h : p.record.KeyedByName)
    (hr : App.readMember room p name cs = .ok (q, rest)) : q.record.KeyedByName := by
  unfold App.readMember at hr
  split at hr
  next =>
    obtain ⟨after, _, hskip⟩ := Configuration.bind_eq_ok.mp hr
    obtain ⟨more, _, hq⟩ := Configuration.bind_eq_ok.mp hskip
    cases hq
    exact h
  next field _ =>
    obtain ⟨noted, hnote, hfield⟩ := Configuration.bind_eq_ok.mp hr
    obtain ⟨after, _, hread⟩ := Configuration.bind_eq_ok.mp hfield
    obtain ⟨⟨record, more⟩, hrecord, hq⟩ := Configuration.bind_eq_ok.mp hread
    cases hq
    have hsame : noted.record = p.record := by
      unfold Partly.note at hnote
      split at hnote
      next => cases hnote
      next => cases hnote; rfl
    rw [hsame] at hrecord
    exact h.readField hrecord

theorem keyedByName_of_readJson (h : readJson room cs = .ok (a, rest)) : a.KeyedByName := by
  obtain ⟨⟨f, body⟩, _, hread⟩ := Configuration.bind_eq_ok.mp h
  cases f with
  | object =>
    obtain ⟨⟨p, after⟩, hmembers, ha⟩ := Configuration.bind_eq_ok.mp hread
    cases ha
    exact readMembers_keeps (P := fun p : Partly App => p.record.KeyedByName)
      (fun hp hmember => hp.readMember hmember) keyedByName_empty hmembers
  | list =>
    obtain ⟨⟨p, after⟩, hitems, ha⟩ := Configuration.bind_eq_ok.mp hread
    cases ha
    refine readItems_keeps (P := fun p : App × List (Option Keyword) => p.1.KeyedByName)
      (fun {p cs q rest} hp hitem => ?_) keyedByName_empty hitems
    split at hitem
    next => cases hitem
    next field later _ =>
      obtain ⟨⟨record, more⟩, hrecord, hq⟩ := Configuration.bind_eq_ok.mp hitem
      cases hq
      exact hp.readField hrecord
  | _ => cases hread

theorem keyedByName_of_ofJsonText {s : String} (h : ofJsonText s = .ok a) : a.KeyedByName := by
  obtain ⟨⟨b, after⟩, hread, hb⟩ := Configuration.bind_eq_ok.mp h
  simp only at hb
  split at hb
  next => cases hb; exact keyedByName_of_readJson hread
  next => cases hb

end App

namespace Directive

theorem orDefault_ne_empty (name : String) : orDefault name ≠ "" := by
  unfold orDefault
  by_cases h : name = ""
  · rw [if_pos h]
    decide
  · rwa [if_neg h]

/-- The default name is applied once: a name that is there already stays. -/
theorem effectiveName_of_ne_empty {d : Directive} (h : d.nodeName ≠ "") :
    d.effectiveName = d.nodeName :=
  if_neg h

end Directive

/-- A directive of a document has its node's name, if need be the default one. -/
theorem Configuration.nodeName_ne_empty {source : Source} {text : String} {c : Configuration}
    (h : ofText source text = .ok c) : ∀ d ∈ c.directives, d.nodeName ≠ "" := by
  obtain ⟨ts, document, _, hdocument, hc⟩ := ofText_eq_ok_iff.mp h
  intro d hd
  obtain ⟨s, _, hs⟩ := exists_of_mem_of_forall₂ (describes_of_ofDocument hdocument hc).flip hd
  rw [hs.nodeName]
  exact Directive.orDefault_ne_empty s.argument

/-- Every node is registered under its own name, which is not empty. -/
def Registry.KeyedByName (r : Registry) : Prop :=
  ∀ e ∈ r.entries, e.2.name = e.1 ∧ e.1 ≠ ""

namespace Registry

variable {r q : Registry} {c : Configuration} {pending : List Directive}

theorem keyedByName_empty : Registry.KeyedByName ∅ := by
  intro e he
  cases he

theorem KeyedByName.provision (h : r.KeyedByName) (d : Directive) :
    Registry.KeyedByName (d.provision r) :=
  Table.forall_insert h ⟨rfl, Directive.orDefault_ne_empty d.nodeName⟩

/-- At no time while directives are registered anything else stands under a name. -/
theorem KeyedByName.publishing (h : r.KeyedByName) (hp : Publishing c r q pending) :
    q.KeyedByName := by
  induction hp with
  | start => exact h
  | publish _ ih => exact ih.provision _

end Registry

namespace Session

/-- Names and keys agree: in the registry, among the named blocks, and in the directives, which have
their node's name already. -/
structure NamesAgree (s : Session) : Prop where
  registry : s.registry.KeyedByName
  nodes : s.configuration.app.KeyedByName
  directives : ∀ d ∈ s.configuration.directives, d.nodeName ≠ ""

variable {s : Session}

theorem namesAgree_empty : NamesAgree ∅ :=
  ⟨Registry.keyedByName_empty, App.keyedByName_empty, fun _ hd => nomatch hd⟩

/-- Each action keeps names and keys in agreement, whether its text is read or refused. -/
theorem NamesAgree.step (h : s.NamesAgree) (action : Action) : (s.step action).NamesAgree := by
  cases action with
  | load source text =>
    cases hload : Configuration.ofText source text with
    | error e => simpa only [Session.step, hload] using h
    | ok loaded =>
      obtain ⟨_, _, _, _, hdocument⟩ := Configuration.ofText_eq_ok_iff.mp hload
      have hnodes := Configuration.keyedByName_of_ofDocument hdocument
      have hdirectives := Configuration.nodeName_ne_empty hload
      simp only [Session.step, hload]
      exact ⟨h.registry, hnodes, hdirectives⟩
  | replaceApp json =>
    cases happ : App.ofJsonText json with
    | error e => simpa only [Session.step, happ] using h
    | ok app =>
      have hnodes := App.keyedByName_of_ofJsonText happ
      simp only [Session.step, happ]
      exact ⟨h.registry, hnodes, h.directives⟩
  | provision =>
    have hpublishing := s.configuration.publishing_provision s.registry
    exact ⟨h.registry.publishing hpublishing, h.nodes, h.directives⟩
  | reprovision =>
    have hpublishing := s.configuration.publishing_provision ∅
    rw [← Configuration.registry_eq] at hpublishing
    exact ⟨Registry.keyedByName_empty.publishing hpublishing, h.nodes, h.directives⟩
  | provisionDirective json =>
    cases hd : Directive.ofJsonText json with
    | error e => simpa only [Session.step, hd] using h
    | ok d =>
      simp only [Session.step, hd]
      exact ⟨h.registry.provision d, h.nodes, h.directives⟩
  | clear => exact ⟨Registry.keyedByName_empty, h.nodes, h.directives⟩

theorem namesAgree_foldl (actions : List Action) (h : s.NamesAgree) :
    (actions.foldl Session.step s).NamesAgree := by
  induction actions generalizing s with
  | nil => exact h
  | cons action actions ih => exact ih (h.step action)

theorem NamesAgree.name_of_find (h : s.NamesAgree) {n : String} {node : Node}
    (hf : (s.find n).node? = some node) : node.name = n := by
  unfold find Resolution.find at hf
  cases hsite : s.registry.get? n with
  | some site =>
    rw [hsite] at hf
    cases hf
    exact (h.registry (n, node) (Table.get?_eq_some_iff.mp hsite)).1
  | none =>
    rw [hsite] at hf
    cases hnamed : s.configuration.app.nodes.get? n with
    | some named =>
      rw [hnamed] at hf
      cases hf
      exact h.nodes (n, node) (Table.get?_eq_some_iff.mp hnamed)
    | none =>
      rw [hnamed] at hf
      cases hf

/-- Whatever was loaded, decoded, registered and cleared, and in whichever order: a name leads to
the node of that name or to none. It does so also while a configuration is being registered. -/
theorem names_agree (actions : List Action) :
    (∀ e ∈ (run actions).registry.entries, e.2.name = e.1 ∧ e.1 ≠ "") ∧
      (∀ e ∈ (run actions).configuration.app.nodes.entries, e.2.name = e.1) ∧
      (∀ d ∈ (run actions).configuration.directives,
        d.nodeName ≠ "" ∧ d.effectiveName = d.nodeName) ∧
      (∀ n node, ((run actions).find n).node? = some node → node.name = n) ∧
      ∀ q pending, Publishing (run actions).configuration (run actions).registry q pending →
        (∀ e ∈ q.entries, e.2.name = e.1 ∧ e.1 ≠ "") ∧
          ∀ n node, (Session.find { run actions with registry := q } n).node? = some node →
            node.name = n := by
  have h : (run actions).NamesAgree := namesAgree_foldl actions namesAgree_empty
  refine ⟨h.registry, h.nodes, fun d hd => ?_, fun n node hf => h.name_of_find hf,
    fun q pending hp => ?_⟩
  · have hname := h.directives d hd
    exact ⟨hname, Directive.effectiveName_of_ne_empty hname⟩
  · have hq : NamesAgree { run actions with registry := q } :=
      ⟨h.registry.publishing hp, h.nodes, h.directives⟩
    exact ⟨hq.registry, fun n node hf => hq.name_of_find hf⟩

example : (run [.load none "a \x7b\n  tailscale\n\x7d", .provision, .load none "\x7b",
      .replaceApp "\x7b\"nodes\": \x7b\"edge\": \x7b\"port\": 1\x7d\x7d\x7d"]).find "edge" =
    .named ⟨"edge", { (∅ : Settings) with port := 1 }⟩ := by
  decide +kernel

end Session

end NodeLayers
