import NodeLayers.Proofs.Publishing
import NodeLayers.SharedRegistry

namespace NodeLayers

/-- The node that an access gives this name. -/
def Access.writes (n : String) : Access → Option Node
  | .set name node => if name = n then some node else none
  | .replaceAll nodes => nodes.get? n
  | .reprovision c => (c.last? n).map Directive.node
  | _ => none

/-- The access drops all that it does not write. -/
def Access.drops : Access → Bool
  | .clear | .replaceAll _ | .reprovision _ => true
  | _ => false

/-- The last access that writes this name gives it this node, and none drops the name later. -/
def Stands (log : List Access) (n : String) (v : Node) : Prop :=
  ∃ before a after, log = before ++ a :: after ∧ a.writes n = some v ∧
    ∀ b ∈ after, b.writes n = none ∧ b.drops = false

/-- The answer to an access behind this log is what the standing writes say. -/
def Access.Answered (log : List Access) : Access → Answer → Prop
  | .get n, .node found => ∀ v, found = some v ↔ Stands log n v
  | .contains n, .truth holds => holds = true ↔ ∃ v, Stands log n v
  | .size, .count k =>
    ∃ names : List String, names.Nodup ∧ (∀ n, n ∈ names ↔ ∃ v, Stands log n v) ∧ names.length = k
  | .isEmpty, .truth holds => holds = true ↔ ∀ n v, ¬Stands log n v
  | .snapshot, .entries es =>
    (∀ n v, (n, v) ∈ es ↔ Stands log n v) ∧ es.Pairwise fun a b => a.1 < b.1
  | .set _ _, .done | .clear, .done | .replaceAll _, .done | .reprovision _, .done => True
  | _, _ => False

/-- Names are sorted strictly, so that each is listed once. -/
theorem Table.pairwise_sorted {α : Type} (t : Table α) :
    t.sorted.Pairwise fun a b => a.1 < b.1 := by
  have hnodup : (t.sorted.map Prod.fst).Nodup :=
    (t.perm_sorted.map Prod.fst).nodup_iff.mpr t.nodup_keys
  have hne : t.sorted.Pairwise fun a b => a.1 ≠ b.1 := List.pairwise_map.mp hnodup
  have hle : t.sorted.Pairwise fun a b => a.1 ≤ b.1 := pairwise_sortedByKey t.entries
  refine (hle.and hne).imp fun {a b} h => ?_
  by_contra hlt
  exact h.2 (String.le_antisymm h.1 (String.not_lt.mp hlt))

section log

variable {log : List Access} {a : Access} {n : String} {v : Node} {r : Registry}

/-- One more access is the last write to a name, or leaves what stands behind the others. -/
theorem stands_concat_iff :
    Stands (log ++ [a]) n v ↔
      a.writes n = some v ∨ a.writes n = none ∧ a.drops = false ∧ Stands log n v := by
  constructor
  · rintro ⟨before, b, after, hlog, hb, hafter⟩
    rcases List.eq_nil_or_concat' after with rfl | ⟨after, last, rfl⟩
    · obtain ⟨_, rfl⟩ := List.append_singleton_inj.mp hlog
      exact Or.inl hb
    · have hlog' : log ++ [a] = (before ++ b :: after) ++ [last] := by rw [hlog]; simp
      obtain ⟨hinit, rfl⟩ := List.append_singleton_inj.mp hlog'
      obtain ⟨hwrites, hdrops⟩ := hafter a (by simp)
      exact Or.inr ⟨hwrites, hdrops, before, b, after, hinit, hb, fun c hc =>
        hafter c (List.mem_append_left _ hc)⟩
  · rintro (hwrites | ⟨hwrites, hdrops, before, b, after, rfl, hb, hafter⟩)
    · exact ⟨log, a, [], rfl, hwrites, by simp⟩
    · refine ⟨before, b, after ++ [a], by simp, hb, fun c hc => ?_⟩
      rcases List.mem_append.mp hc with hc | hc
      · exact hafter c hc
      · obtain rfl := List.mem_singleton.mp hc
        exact ⟨hwrites, hdrops⟩

theorem Registry.get?_access (r : Registry) (a : Access) :
    (r.access a).2.get? n = some v ↔
      a.writes n = some v ∨ a.writes n = none ∧ a.drops = false ∧ r.get? n = some v := by
  cases a with
  | set name node =>
    have hset : (r.access (.set name node)).2 = r.insert name node := rfl
    rw [hset, Table.get?_insert]
    by_cases hn : name = n
    · simp [Access.writes, hn]
    · simp [Access.writes, Access.drops, hn, Ne.symm hn]
  | clear => simp [Registry.access, Access.writes, Access.drops]
  | replaceAll nodes => simp [Registry.access, Access.writes, Access.drops]
  | reprovision c =>
    have hregistry : (r.access (.reprovision c)).2 = c.provision ∅ := c.registry_eq
    rw [hregistry, c.get?_provision]
    simp [Access.writes, Access.drops]
  | _ => simp [Registry.access, Access.writes, Access.drops]

/-- The registry holds the standing writes of this log, and nothing else. -/
def Registry.Holds (r : Registry) (log : List Access) : Prop :=
  ∀ n v, r.get? n = some v ↔ Stands log n v

theorem Registry.Holds.access (h : r.Holds log) (a : Access) :
    (r.access a).2.Holds (log ++ [a]) := by
  intro n v
  rw [Registry.get?_access, stands_concat_iff, h n v]

/-- A registry that holds what stands answers every access accordingly. -/
theorem Registry.Holds.answered (h : r.Holds log) (a : Access) :
    a.Answered log (r.access a).1 := by
  cases a with
  | get n => exact h n
  | contains n =>
    have hsome : r.contains n = true ↔ ∃ v, r.get? n = some v := Option.isSome_iff_exists
    exact hsome.trans (exists_congr (h n))
  | size =>
    have hmem : ∀ n, n ∈ r.keys ↔ ∃ v, Stands log n v := fun n =>
      Table.mem_keys_iff.trans (exists_congr (h n))
    exact ⟨r.keys, r.nodup_keys, hmem, List.length_map ..⟩
  | isEmpty =>
    have hempty : r.isEmpty = true ↔ ∀ n v, ¬(n, v) ∈ r.entries := by
      rw [Table.isEmpty, List.isEmpty_iff, List.eq_nil_iff_forall_not_mem, Prod.forall]
    simp only [← Table.get?_eq_some_iff, h _ _] at hempty
    exact hempty
  | snapshot =>
    refine ⟨fun n v => ?_, r.pairwise_sorted⟩
    rw [← h n v, Table.get?_eq_some_iff]
    exact r.perm_sorted.mem_iff
  | _ => trivial

def Access.LeavesAlone (n : String) (a : Access) : Prop :=
  a.writes n = none ∧ a.drops = false

theorem stands_filter_iff {history : List Event} {own : Event → Bool}
    (h : ∀ e ∈ history, own e = false → e.access.LeavesAlone n) :
    Stands ((history.filter own).map Event.access) n v ↔
      Stands (history.map Event.access) n v := by
  induction history using List.reverseRecOn with
  | nil => rfl
  | append_singleton history e ih =>
    have hinit := ih fun e he => h e (List.mem_append_left _ he)
    rw [List.filter_append, List.map_append, List.map_append, List.map_singleton,
      stands_concat_iff, ← hinit]
    cases hown : own e with
    | true => simp [List.filter, hown, stands_concat_iff]
    | false =>
      obtain ⟨hwrites, hdrops⟩ := h e (by simp) hown
      simp [List.filter, hown, hwrites, hdrops]

end log

/-- What a client asks for neither writes nor drops this name. -/
def Call.LeavesAlone (n : String) : Call → Prop
  | .access a => a.LeavesAlone n
  | .provision c => c.last? n = none

structure Client.LeavesAlone (n : String) (client : Client) : Prop where
  pending : ∀ d ∈ client.pending, d.effectiveName ≠ n
  calls : ∀ call ∈ client.calls, call.LeavesAlone n

/-- The steps of one client, with the accesses that it makes. -/
inductive Client.Run (client : Client) : List Access → Client → Prop
  | start : Run client [] client
  | step {as mid made last} : Run client as mid → Step mid made last →
      Run client (as ++ made.toList) last

namespace Client

variable {client client' : Client} {made : Option Access} {as : List Access} {n : String}

theorem Step.leavesAlone (h : client.Step made client') (hn : client.LeavesAlone n) :
    client'.LeavesAlone n ∧ ∀ a ∈ made, a.LeavesAlone n := by
  cases h with
  | @access a calls =>
    obtain ⟨hpending, hcalls⟩ := hn
    refine ⟨⟨hpending, fun call hcall => hcalls call (List.mem_cons_of_mem _ hcall)⟩, ?_⟩
    rintro b hb
    obtain rfl := Option.some.inj hb
    exact hcalls _ List.mem_cons_self
  | @provision c calls =>
    obtain ⟨_, hcalls⟩ := hn
    have hnone : c.last? n = none := hcalls _ List.mem_cons_self
    refine ⟨⟨?_, fun call hcall => hcalls call (List.mem_cons_of_mem _ hcall)⟩, by simp⟩
    rintro d hd rfl
    rw [Configuration.last?_of_mem_values hd] at hnone
    cases hnone
  | @publish before d after calls =>
    obtain ⟨hpending, hcalls⟩ := hn
    have hrest : ∀ e ∈ before ++ after, e.effectiveName ≠ n := by
      intro e he
      apply hpending
      rcases List.mem_append.mp he with he | he
      · exact List.mem_append_left _ he
      · exact List.mem_append_right _ (List.mem_cons_of_mem d he)
    refine ⟨⟨hrest, hcalls⟩, ?_⟩
    rintro b hb
    obtain rfl := Option.some.inj hb
    have hd : d.effectiveName ≠ n := hpending d (by simp)
    exact ⟨if_neg hd, rfl⟩

theorem Run.leavesAlone (h : client.Run as client') (hn : client.LeavesAlone n) :
    client'.LeavesAlone n ∧ ∀ a ∈ as, a.LeavesAlone n := by
  induction h with
  | start => exact ⟨hn, by simp⟩
  | step _ hstep ih =>
    obtain ⟨hlast, hmade⟩ := hstep.leavesAlone ih.1
    refine ⟨hlast, fun b hb => ?_⟩
    rcases List.mem_append.mp hb with hb | hb
    · exact ih.2 b hb
    · exact hmade b (Option.mem_toList.mp hb)

theorem leavesAlone_start {calls : List Call} (h : ∀ call ∈ calls, call.LeavesAlone n) :
    (start calls).LeavesAlone n :=
  ⟨by simp [start], h⟩

end Client

namespace SharedRegistry

variable {programs : List (List Call)} {s s' : SharedRegistry}

/-- The registry holds what stands, and every answer was given so. -/
structure Consistent (s : SharedRegistry) : Prop where
  holds : s.registry.Holds s.log
  answered : ∀ before e after, s.history = before ++ e :: after →
    e.access.Answered (before.map Event.access) e.answer

theorem consistent_start (programs : List (List Call)) : (start programs).Consistent := by
  refine ⟨fun n v => ?_, fun before e after hsplit => ?_⟩
  · constructor
    · intro h
      cases h
    · rintro ⟨before, a, after, hlog, _⟩
      simp [log, start] at hlog
  · simp [start] at hsplit

theorem Consistent.step (h : s.Consistent) (hs : Step s s') : s'.Consistent := by
  cases hs with
  | silent => exact ⟨h.holds, h.answered⟩
  | @access i client client' a _ _ =>
    refine ⟨?_, fun before e after hsplit => ?_⟩
    · have haccess := h.holds.access a
      simpa [log] using haccess
    · rcases List.eq_nil_or_concat' after with rfl | ⟨after, last, rfl⟩
      · obtain ⟨rfl, rfl⟩ := List.append_singleton_inj.mp hsplit
        exact h.holds.answered a
      · rw [← List.cons_append, ← List.append_assoc] at hsplit
        exact h.answered before e after (List.append_singleton_inj.mp hsplit).1

theorem logOf_access (r : Registry) (clients : List Client) (e : Event) (i : Nat) :
    logOf ⟨r, clients, s.history ++ [e]⟩ i =
      s.logOf i ++ if e.client = i then [e.access] else [] := by
  by_cases he : e.client = i <;> simp [logOf, he]

/-- The history interleaves runs of the programs. -/
structure Interleaves (programs : List (List Call)) (s : SharedRegistry) : Prop where
  length : s.clients.length = programs.length
  inRange : ∀ e ∈ s.history, e.client < programs.length
  runs : ∀ (i : Nat) (p : List Call) (client : Client), programs[i]? = some p →
    s.clients[i]? = some client → (Client.start p).Run (s.logOf i) client

theorem interleaves_start (programs : List (List Call)) :
    Interleaves programs (start programs) := by
  refine ⟨by simp [start], by simp [start], fun i p client hp hclient => ?_⟩
  simp only [start, List.getElem?_map, hp, Option.map_some, Option.some.injEq] at hclient
  subst hclient
  exact .start

/-- A step of one client goes on with its run and leaves the others' as they are. -/
theorem Interleaves.runs_set (h : Interleaves programs s) {i j : Nat} {client client' last : Client}
    {made : Option Access} {p : List Call} (hclient : s.clients[i]? = some client)
    (hstep : client.Step made client') (hp : programs[j]? = some p)
    (hlast : (s.clients.set i client')[j]? = some last) :
    (Client.start p).Run (s.logOf j ++ if i = j then made.toList else []) last := by
  rw [List.getElem?_set] at hlast
  by_cases hij : i = j
  · subst hij
    obtain ⟨hi, _⟩ := List.getElem?_eq_some_iff.mp hclient
    rw [if_pos rfl, if_pos hi, Option.some.injEq] at hlast
    subst hlast
    rw [if_pos rfl]
    exact .step (h.runs i p client hp hclient) hstep
  · rw [if_neg hij] at hlast
    rw [if_neg hij, List.append_nil]
    exact h.runs j p last hp hlast

theorem Interleaves.step (h : Interleaves programs s) (hs : Step s s') :
    Interleaves programs s' := by
  cases hs with
  | @access i client client' a hclient hstep =>
    obtain ⟨hi, _⟩ := List.getElem?_eq_some_iff.mp hclient
    refine ⟨by simp [h.length], fun e he => ?_, fun j p last hp hlast => ?_⟩
    · rcases List.mem_append.mp he with he | he
      · exact h.inRange e he
      · obtain rfl := List.mem_singleton.mp he
        rw [← h.length]
        exact hi
    · rw [logOf_access]
      exact h.runs_set hclient hstep hp hlast
  | @silent i client client' hclient hstep =>
    refine ⟨by simp [h.length], h.inRange, fun j p last hp hlast => ?_⟩
    have hrun := h.runs_set hclient hstep hp hlast
    rwa [Option.toList_none, ite_self, List.append_nil] at hrun

/-- No access of a client whose program leaves a name alone has touched it. -/
theorem Interleaves.leavesAlone (h : Interleaves programs s) {n : String} {e : Event}
    (he : e ∈ s.history)
    (hn : ∀ p, programs[e.client]? = some p → ∀ call ∈ p, call.LeavesAlone n) :
    e.access.LeavesAlone n := by
  have hlt := h.inRange e he
  have hlt' : e.client < s.clients.length := by rw [h.length]; exact hlt
  have hp : programs[e.client]? = some programs[e.client] := List.getElem?_eq_getElem hlt
  have hrun := h.runs e.client _ _ hp (List.getElem?_eq_getElem hlt')
  apply (hrun.leavesAlone (Client.leavesAlone_start (hn _ hp))).2
  exact List.mem_map_of_mem (List.mem_filter.mpr ⟨he, by simp⟩)

theorem Reachable.consistent (h : Reachable programs s) : s.Consistent := by
  induction h with
  | start => exact consistent_start programs
  | step _ hs ih => exact ih.step hs

theorem Reachable.interleaves (h : Reachable programs s) : Interleaves programs s := by
  induction h with
  | start => exact interleaves_start programs
  | step _ hs ih => exact ih.step hs

/-- Whatever the clients do, and in whatever order: a name has the node of the last write to it that
was not dropped, every access was answered so, each client's accesses are a run of its program, and
a name that all the others leave alone has what this client wrote last. -/
theorem Reachable.last_write_wins (h : Reachable programs s) :
    (∀ n v, s.registry.get? n = some v ↔ Stands s.log n v) ∧
      (∀ before e after, s.history = before ++ e :: after →
        e.access.Answered (before.map Event.access) e.answer) ∧
      (∀ i p, programs[i]? = some p → ∃ client, s.clients[i]? = some client ∧
        (Client.start p).Run (s.logOf i) client) ∧
      ∀ i n,
        (∀ j p, j ≠ i → programs[j]? = some p → ∀ call ∈ p, call.LeavesAlone n) →
        ∀ v, s.registry.get? n = some v ↔ Stands (s.logOf i) n v := by
  have hconsistent := h.consistent
  have hinterleaves := h.interleaves
  refine ⟨hconsistent.holds, hconsistent.answered, fun i p hp => ?_, fun i n hn v => ?_⟩
  · obtain ⟨hi, _⟩ := List.getElem?_eq_some_iff.mp hp
    rw [← hinterleaves.length] at hi
    have hclient := List.getElem?_eq_getElem hi
    exact ⟨_, hclient, hinterleaves.runs i p _ hp hclient⟩
  · rw [hconsistent.holds n v, logOf, stands_filter_iff, log]
    intro e he hother
    apply hinterleaves.leavesAlone he
    intro p hp
    exact hn e.client p (by simpa using hother) hp

/-- One client provisions a site without a name, another registers a node and counts what there
is. -/
def twoClients : List (List Call) :=
  [[.provision ⟨∅, [∅]⟩], [.access (.set "b" ⟨"b", ∅⟩), .access .size]]

def twoClientsDone : SharedRegistry where
  registry := ⟨[("b", ⟨"b", ∅⟩), ("default", ⟨"default", ∅⟩)], by decide⟩
  clients := [.start [], .start []]
  history := [⟨1, .set "b" ⟨"b", ∅⟩, .done⟩, ⟨0, .set "default" ⟨"default", ∅⟩, .done⟩,
    ⟨1, .size, .count 2⟩]

theorem last_write_wins_twoClients :
    Reachable twoClients twoClientsDone ∧ Stands twoClientsDone.log "default" ⟨"default", ∅⟩ ∧
      twoClientsDone.registry.get? "b" = some ⟨"b", ∅⟩ := by
  have hbegun := Reachable.step (.start : Reachable twoClients _) (.silent (i := 0) rfl .provision)
  have hset := hbegun.step (.access (i := 1) rfl .access)
  have hpublished := hset.step (.access (i := 0) rfl (@Client.Step.publish [] ∅ [] []))
  have hcounted := hpublished.step (.access (i := 1) rfl .access)
  have hdone : Reachable twoClients twoClientsDone := hcounted
  obtain ⟨hstands, _, _, hown⟩ := hdone.last_write_wins
  refine ⟨hdone, (hstands _ _).mp rfl, (hown 1 "b" ?_ _).mpr ⟨[], _, [.size], rfl, rfl, ?_⟩⟩
  · intro j p hj hp call hcall
    match j with
    | 0 =>
      obtain rfl := Option.some.inj hp
      obtain rfl := List.mem_singleton.mp hcall
      show Configuration.last? ⟨∅, [∅]⟩ "b" = none
      rfl
    | 1 => exact absurd rfl hj
    | j + 2 => cases hp
  · simp [Access.writes, Access.drops]

end SharedRegistry

end NodeLayers
