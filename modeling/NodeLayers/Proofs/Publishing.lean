import NodeLayers.Proofs.Deciding

namespace NodeLayers

/-- What is registered while the deciding directives are registered on top of `r`, and the
directives that are still to come. Any of them may be next. -/
inductive Publishing (c : Configuration) (r : Registry) : Registry → List Directive → Prop
  | start : Publishing c r r c.deciding.values
  | publish {q before d after} : Publishing c r q (before ++ d :: after) →
      Publishing c r (d.provision q) (before ++ after)

/-- Names still to come have what they had at the start, and all others what they end with. -/
structure Midway (c : Configuration) (r q : Registry) (pending : List Directive) : Prop where
  distinct : (pending.map Directive.effectiveName).Nodup
  deciding : ∀ d ∈ pending, c.last? d.effectiveName = some d
  waiting : ∀ n ∈ pending.map Directive.effectiveName, q.get? n = r.get? n
  done : ∀ n, n ∉ pending.map Directive.effectiveName →
    q.get? n = ((c.last? n).map Directive.node).or (r.get? n)

theorem Directive.get?_provision (d : Directive) (r : Registry) (n : String) :
    (d.provision r).get? n = if n = d.effectiveName then some d.node else r.get? n :=
  Table.get?_insert r d.effectiveName n d.node

section

variable {c : Configuration} {r q : Registry} {pending before after : List Directive}
  {d : Directive}

theorem midway_start (c : Configuration) (r : Registry) : Midway c r r c.deciding.values := by
  refine ⟨?_, fun d hd => Configuration.last?_of_mem_values hd, fun _ _ => rfl, fun n hn => ?_⟩
  · rw [Configuration.names_values]
    exact c.deciding.nodup_keys
  · have hnone : c.last? n = none := by
      cases hlast : c.last? n with
      | none => rfl
      | some d =>
        have hname := Configuration.effectiveName_of_last? hlast
        have hmem := List.mem_map_of_mem (f := Directive.effectiveName)
          (Configuration.mem_values_of_last? hlast)
        rw [hname] at hmem
        exact absurd hmem hn
    rw [hnone]
    rfl

/-- Registering one more directive changes its own name only, and that name is not to come again. -/
theorem Midway.publish (h : Midway c r q (before ++ d :: after)) :
    Midway c r (d.provision q) (before ++ after) := by
  have hperm : (before ++ d :: after).Perm (d :: (before ++ after)) := List.perm_middle
  have hnames := hperm.map Directive.effectiveName
  have hdistinct := hnames.nodup_iff.mp h.distinct
  rw [List.map_cons, List.nodup_cons] at hdistinct
  obtain ⟨hd, hrest⟩ := hdistinct
  have hlast := h.deciding d (by simp)
  refine ⟨hrest, fun e he => ?_, fun n hn => ?_, fun n hn => ?_⟩
  · exact h.deciding e (hperm.mem_iff.mpr (List.mem_cons_of_mem d he))
  · have hne : n ≠ d.effectiveName := by
      rintro rfl
      exact hd hn
    rw [Directive.get?_provision, if_neg hne]
    exact h.waiting n (hnames.mem_iff.mpr (List.mem_cons_of_mem _ hn))
  · rw [Directive.get?_provision]
    by_cases hne : n = d.effectiveName
    · rw [if_pos hne, hne, hlast]
      rfl
    · rw [if_neg hne]
      refine h.done n fun hmem => ?_
      rcases List.mem_cons.mp (hnames.mem_iff.mp hmem) with heq | hmem
      · exact hne heq
      · exact hn hmem

theorem Publishing.midway (h : Publishing c r q pending) : Midway c r q pending := by
  induction h with
  | start => exact midway_start c r
  | publish _ ih => exact ih.publish

/-- At no time a name has anything but what it had at the start or its deciding directive's node. -/
theorem Publishing.get?_eq (h : Publishing c r q pending) (n : String) :
    q.get? n = r.get? n ∨ ∃ d, c.last? n = some d ∧ q.get? n = some d.node := by
  have hmid := h.midway
  by_cases hn : n ∈ pending.map Directive.effectiveName
  · exact Or.inl (hmid.waiting n hn)
  · rw [hmid.done n hn]
    cases hlast : c.last? n with
    | none => exact Or.inl rfl
    | some d => exact Or.inr ⟨d, rfl, rfl⟩

theorem Publishing.get?_end (h : Publishing c r q []) (n : String) :
    q.get? n = ((c.last? n).map Directive.node).or (r.get? n) :=
  h.midway.done n List.not_mem_nil

theorem Publishing.of_perm {order : List Directive} (h : Publishing c r q pending)
    (hp : order.Perm pending) :
    Publishing c r (order.foldl (fun q d => d.provision q) q) [] := by
  induction order generalizing q pending with
  | nil =>
    obtain rfl := hp.nil_eq
    exact h
  | cons d order ih =>
    obtain ⟨before, after, rfl⟩ := List.append_of_mem (hp.subset List.mem_cons_self)
    exact ih h.publish (hp.trans List.perm_middle).cons_inv

end

namespace Configuration

theorem publishing_provision (c : Configuration) (r : Registry) :
    Publishing c r (c.provision r) [] := by
  rw [provision_eq]
  exact Publishing.start.of_perm (List.Perm.refl _)

theorem get?_provision (c : Configuration) (r : Registry) (n : String) :
    (c.provision r).get? n = ((c.last? n).map Directive.node).or (r.get? n) :=
  (c.publishing_provision r).get?_end n

theorem registry_eq (c : Configuration) : c.registry = c.provision ∅ := by
  rw [provision_eq, foldl_provision_eq, registry, Table.ofList, Table.values, List.map_map]
  rfl

/-- The order in which the deciding directives are registered makes no difference: each is the last
one for its node, their names are distinct, and on the way nothing else is ever registered. -/
theorem provision_in_any_order (c : Configuration) (r : Registry) :
    c.deciding.keys = (c.directives.map Directive.effectiveName).eraseDups ∧
      (∀ n, c.deciding.get? n = c.last? n) ∧
      (∀ order : List Directive, order.Perm c.deciding.values →
        Publishing c r (order.foldl (fun q d => d.provision q) r) []) ∧
      (∀ q pending, Publishing c r q pending → ∀ n,
        q.get? n = r.get? n ∨ ∃ d, c.last? n = some d ∧ q.get? n = some d.node) ∧
      (∀ q, Publishing c r q [] →
        (∀ n, q.get? n = ((c.last? n).map Directive.node).or (r.get? n)) ∧
          q.sorted = (c.provision r).sorted) ∧
      (c.directives.foldl (fun q d => d.provision q) r).sorted = (c.provision r).sorted ∧
      c.registry = c.provision ∅ := by
  refine ⟨c.keys_deciding, c.get?_deciding, fun order ho => Publishing.start.of_perm ho,
    fun q pending h => h.get?_eq, fun q h => ⟨h.get?_end, ?_⟩, ?_, c.registry_eq⟩
  · refine Table.sorted_eq_of_get? fun n => ?_
    rw [h.get?_end, get?_provision]
  · refine Table.sorted_eq_of_get? fun n => ?_
    rw [get?_foldl_provision, get?_provision]
    rfl

/-- Two directives for one node, the second without a name, and one for another node. -/
def unnamedLast : Configuration :=
  ⟨∅, [⟨"default", { (∅ : Settings) with hostname := "h1" }⟩, ⟨"edge", ∅⟩,
    ⟨"", { (∅ : Settings) with hostname := "h2" }⟩]⟩

/-- What may be registered before. -/
def defaultAndCore : Registry :=
  .ofList [("default", ⟨"default", ∅⟩), ("core", ⟨"core", ∅⟩)]

theorem provision_unnamedLast :
    unnamedLast.deciding.keys = ["default", "edge"] ∧
      unnamedLast.deciding.get? "default" =
        some ⟨"", { (∅ : Settings) with hostname := "h2" }⟩ ∧
      ∃ q, Publishing unnamedLast defaultAndCore q [] ∧
        q = unnamedLast.deciding.values.reverse.foldl (fun q d => d.provision q) defaultAndCore ∧
        q.get? "default" = some ⟨"default", { (∅ : Settings) with hostname := "h2" }⟩ ∧
        q.get? "core" = some ⟨"core", ∅⟩ := by
  obtain ⟨hkeys, hget, horder, _, hend, _⟩ := unnamedLast.provision_in_any_order defaultAndCore
  have hpublished := horder unnamedLast.deciding.values.reverse (List.reverse_perm _)
  obtain ⟨hfinal, _⟩ := hend _ hpublished
  exact ⟨hkeys.trans (by decide), (hget "default").trans (by decide), _, hpublished, rfl,
    (hfinal "default").trans (by decide), (hfinal "core").trans (by decide)⟩

end Configuration

end NodeLayers
