import NodeLayers.Configuration
import Mathlib.Data.List.Induction
import Mathlib.Data.List.Nodup

namespace NodeLayers

namespace Table

variable {α : Type} {t u : Table α}

/-- Of the values inserted under a name the last counts. -/
theorem get?_foldl_insert (es : List (String × α)) (t : Table α) (k : String) :
    (es.foldl (fun t e => t.insert e.1 e.2) t).get? k =
      ((es.findRev? fun e => e.1 == k).map Prod.snd).or (t.get? k) := by
  induction es generalizing t with
  | nil => rfl
  | cons e es ih =>
    rw [List.foldl_cons, ih, get?_insert, List.findRev?_eq_find?_reverse,
      List.findRev?_eq_find?_reverse, List.reverse_cons, List.find?_append]
    by_cases hk : k = e.1
    · cases es.reverse.find? fun e => e.1 == k <;> simp [hk]
    · have hne : (e.1 == k) = false := beq_eq_false_iff_ne.mpr (Ne.symm hk)
      cases es.reverse.find? fun e => e.1 == k <;> simp [hk, hne]

theorem get?_ofList (es : List (String × α)) (k : String) :
    (ofList es).get? k = (es.findRev? fun e => e.1 == k).map Prod.snd := by
  rw [ofList, get?_foldl_insert]
  exact Option.or_none

theorem ofList_concat (es : List (String × α)) (e : String × α) :
    ofList (es ++ [e]) = (ofList es).insert e.1 e.2 := by
  rw [ofList, List.foldl_concat]
  rfl

/-- The names stand in the order in which they were first given. -/
theorem keys_ofList (es : List (String × α)) : (ofList es).keys = (es.map Prod.fst).eraseDups := by
  induction es using List.reverseRecOn with
  | nil => rfl
  | append_singleton es e ih =>
    rw [ofList_concat, keys_insert, ih, List.map_append, List.map_singleton,
      List.eraseDups_append, List.removeAll]
    by_cases he : e.1 ∈ es.map Prod.fst
    · rw [if_pos (List.mem_eraseDups.mpr he)]
      simp [he]
    · rw [if_neg fun h => he (List.mem_eraseDups.mp h)]
      simp [he, List.eraseDups_cons]

theorem mem_keys_iff {k : String} : k ∈ t.keys ↔ ∃ v, t.get? k = some v := by
  constructor
  · intro h
    obtain ⟨e, he, rfl⟩ := List.mem_map.mp h
    exact ⟨e.2, get?_eq_some_iff.mpr he⟩
  · rintro ⟨v, hv⟩
    exact List.mem_map_of_mem (get?_eq_some_iff.mp hv)

theorem nodup_entries (t : Table α) : t.entries.Nodup :=
  List.Nodup.of_map Prod.fst t.nodup_keys

theorem perm_sorted (t : Table α) : t.sorted.Perm t.entries :=
  sortedByKey_perm t.entries

/-- Tables with the same values under the same names are sorted into the same entries. -/
theorem sorted_eq_of_get? (h : ∀ k, t.get? k = u.get? k) : t.sorted = u.sorted := by
  have hmem : ∀ e, e ∈ t.entries ↔ e ∈ u.entries := by
    rintro ⟨k, v⟩
    rw [← get?_eq_some_iff, ← get?_eq_some_iff, h k]
  have hperm : t.entries.Perm u.entries :=
    (List.perm_ext_iff_of_nodup t.nodup_entries u.nodup_entries).mpr hmem
  refine List.Perm.eq_of_pairwise ?_ (pairwise_sortedByKey _) (pairwise_sortedByKey _)
    (t.perm_sorted.trans (hperm.trans u.perm_sorted.symm))
  rintro ⟨j, v⟩ ⟨k, w⟩ hv hw hjk hkj
  obtain rfl : j = k := String.le_antisymm hjk hkj
  have hleft := get?_eq_some_iff.mpr (t.perm_sorted.mem_iff.mp hv)
  have hright := get?_eq_some_iff.mpr (u.perm_sorted.mem_iff.mp hw)
  rw [h, hright] at hleft
  cases hleft
  rfl

end Table

theorem foldl_provision_eq (ds : List Directive) (r : Registry) :
    ds.foldl (fun r d => d.provision r) r =
      (ds.map fun d => (d.effectiveName, d.node)).foldl (fun t e => t.insert e.1 e.2) r := by
  rw [List.foldl_map]
  rfl

/-- After directives were registered one by one, each name has the last of its nodes. -/
theorem get?_foldl_provision (ds : List Directive) (r : Registry) (n : String) :
    (ds.foldl (fun r d => d.provision r) r).get? n =
      ((ds.findRev? fun d => d.effectiveName == n).map Directive.node).or (r.get? n) := by
  rw [foldl_provision_eq, Table.get?_foldl_insert, List.findRev?_eq_find?_reverse,
    List.findRev?_eq_find?_reverse, ← List.map_reverse, List.find?_map, Option.map_map]
  rfl

namespace Configuration

variable {c : Configuration} {d : Directive} {n : String}

/-- The last directive for a node. -/
def last? (c : Configuration) (name : String) : Option Directive :=
  c.directives.findRev? fun d => d.effectiveName == name

theorem last?_eq_some_iff :
    c.last? n = some d ↔ d.effectiveName = n ∧ ∃ before after,
      c.directives = before ++ d :: after ∧ ∀ e ∈ after, e.effectiveName ≠ n := by
  rw [last?, List.findRev?_eq_find?_reverse, List.find?_eq_some_iff_append, beq_iff_eq]
  refine and_congr_right fun _ => ⟨?_, ?_⟩
  · rintro ⟨later, earlier, hsplit, hlater⟩
    refine ⟨earlier.reverse, later.reverse, ?_, fun e he => ?_⟩
    · rw [← List.reverse_reverse c.directives, hsplit]
      simp
    · simpa using hlater e (List.mem_reverse.mp he)
  · rintro ⟨before, after, hsplit, hafter⟩
    refine ⟨after.reverse, before.reverse, by rw [hsplit]; simp, fun e he => ?_⟩
    simpa using hafter e (List.mem_reverse.mp he)

theorem last?_eq_none_iff : c.last? n = none ↔ ∀ d ∈ c.directives, d.effectiveName ≠ n := by
  rw [last?, List.findRev?_eq_find?_reverse, List.find?_eq_none]
  simp

theorem effectiveName_of_last? (h : c.last? n = some d) : d.effectiveName = n :=
  (last?_eq_some_iff.mp h).1

/-- A node is decided by the last directive for it. -/
theorem get?_deciding (c : Configuration) (n : String) : c.deciding.get? n = c.last? n := by
  rw [deciding, Table.get?_ofList, last?, List.findRev?_eq_find?_reverse,
    List.findRev?_eq_find?_reverse, ← List.map_reverse, List.find?_map, Option.map_map]
  exact congrFun Option.map_id _

theorem keys_deciding (c : Configuration) :
    c.deciding.keys = (c.directives.map Directive.effectiveName).eraseDups := by
  rw [deciding, Table.keys_ofList, List.map_map]
  rfl

theorem last?_of_mem_entries {e : String × Directive} (h : e ∈ c.deciding.entries) :
    c.last? e.1 = some e.2 := by
  rw [← get?_deciding]
  exact Table.get?_eq_some_iff.mpr h

theorem last?_of_mem_values (h : d ∈ c.deciding.values) : c.last? d.effectiveName = some d := by
  obtain ⟨e, he, rfl⟩ := List.mem_map.mp h
  have hlast := last?_of_mem_entries he
  rw [effectiveName_of_last? hlast]
  exact hlast

theorem mem_values_of_last? (h : c.last? n = some d) : d ∈ c.deciding.values := by
  rw [← get?_deciding] at h
  exact List.mem_map_of_mem (Table.get?_eq_some_iff.mp h)

theorem names_values (c : Configuration) :
    c.deciding.values.map Directive.effectiveName = c.deciding.keys := by
  rw [Table.values, Table.keys, List.map_map]
  exact List.map_congr_left fun e he => effectiveName_of_last? (last?_of_mem_entries he)

theorem provision_eq (c : Configuration) (r : Registry) :
    c.provision r = c.deciding.values.foldl (fun r d => d.provision r) r := by
  rw [Table.values, List.foldl_map]
  rfl

end Configuration

end NodeLayers
