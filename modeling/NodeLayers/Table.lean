namespace NodeLayers

/-- Entries in the order of their names, compared character by character. -/
def sortedByKey {α : Type} (entries : List (String × α)) : List (String × α) :=
  entries.mergeSort fun a b => decide (a.1 ≤ b.1)

theorem sortedByKey_perm {α : Type} (entries : List (String × α)) :
    (sortedByKey entries).Perm entries :=
  List.mergeSort_perm _ _

theorem pairwise_sortedByKey {α : Type} (entries : List (String × α)) :
    (sortedByKey entries).Pairwise fun a b => a.1 ≤ b.1 := by
  have h := @List.pairwise_mergeSort (String × α) (fun a b => decide (a.1 ≤ b.1))
    (fun a b c hab hbc => by
      simp only [decide_eq_true_eq] at hab hbc ⊢
      exact String.le_trans hab hbc)
    (fun a b => by
      simp only [Bool.or_eq_true, decide_eq_true_eq]
      exact String.le_total a.1 b.1) entries
  exact h.imp fun hab => by simpa using hab

/-- Values under names, in the order in which the names were first given. -/
structure Table (α : Type) where
  entries : List (String × α)
  nodup_keys : (entries.map Prod.fst).Nodup
deriving DecidableEq

/-- The value of a name that is there already is replaced in its place, a new name goes last. -/
def putEntry {α : Type} (k : String) (v : α) : List (String × α) → List (String × α)
  | [] => [(k, v)]
  | e :: rest => if e.1 = k then (k, v) :: rest else e :: putEntry k v rest

theorem keys_putEntry {α : Type} (k : String) (v : α) (es : List (String × α)) :
    (putEntry k v es).map Prod.fst =
      if k ∈ es.map Prod.fst then es.map Prod.fst else es.map Prod.fst ++ [k] := by
  induction es with
  | nil => simp [putEntry]
  | cons e rest ih =>
    by_cases h : e.1 = k
    · simp [putEntry, h]
    · have hk : ¬k = e.1 := fun he => h he.symm
      simp only [putEntry, h, ↓reduceIte, List.map_cons, ih, List.mem_cons, hk, false_or]
      split <;> simp

theorem nodup_keys_putEntry {α : Type} (k : String) (v : α) {es : List (String × α)}
    (h : (es.map Prod.fst).Nodup) : ((putEntry k v es).map Prod.fst).Nodup := by
  rw [keys_putEntry]
  split
  next => exact h
  next hk =>
    rw [List.nodup_append]
    exact ⟨h, by simp, fun a ha b hb hab => hk (by simp_all)⟩

theorem lookup_entry {α : Type} (j : String) (e : String × α) (es : List (String × α)) :
    (e :: es).lookup j = if j = e.1 then some e.2 else es.lookup j := by
  rw [List.lookup_cons]
  by_cases h : j = e.1
  · simp [h]
  · rw [beq_eq_false_iff_ne.mpr h, if_neg h]

theorem lookup_putEntry {α : Type} (k j : String) (v : α) (es : List (String × α)) :
    (putEntry k v es).lookup j = if j = k then some v else es.lookup j := by
  induction es with
  | nil => simp [putEntry, lookup_entry]
  | cons e rest ih =>
    by_cases hk : e.1 = k
    · subst hk
      by_cases hj : j = e.1 <;> simp [putEntry, lookup_entry, hj]
    · by_cases hj : j = e.1
      · subst hj
        simp [putEntry, lookup_entry, hk]
      · simp [putEntry, lookup_entry, hk, hj, ih]

theorem lookup_eq_some_of_mem {α : Type} {es : List (String × α)} {k : String} {v : α}
    (hn : (es.map Prod.fst).Nodup) (h : (k, v) ∈ es) : es.lookup k = some v := by
  induction es with
  | nil => simp at h
  | cons e rest ih =>
    rw [List.map_cons, List.nodup_cons] at hn
    rw [lookup_entry]
    rcases List.mem_cons.mp h with rfl | hr
    · simp
    · have hk : k ≠ e.1 := fun hk => hn.1 (hk ▸ List.mem_map_of_mem hr)
      rw [if_neg hk, ih hn.2 hr]

theorem mem_of_lookup_eq_some {α : Type} {es : List (String × α)} {k : String} {v : α}
    (h : es.lookup k = some v) : (k, v) ∈ es := by
  induction es with
  | nil => simp at h
  | cons e rest ih =>
    rw [lookup_entry] at h
    split at h
    next hk =>
      obtain rfl := Option.some.inj h
      subst hk
      exact List.mem_cons_self
    next => exact List.mem_cons_of_mem _ (ih h)

namespace Table

variable {α β : Type}

def empty : Table α :=
  ⟨[], by simp⟩

instance : EmptyCollection (Table α) :=
  ⟨empty⟩

instance : Inhabited (Table α) :=
  ⟨empty⟩

def keys (t : Table α) : List String :=
  t.entries.map Prod.fst

def size (t : Table α) : Nat :=
  t.entries.length

def isEmpty (t : Table α) : Bool :=
  t.entries.isEmpty

def get? (t : Table α) (k : String) : Option α :=
  t.entries.lookup k

def contains (t : Table α) (k : String) : Bool :=
  (t.get? k).isSome

def insert (t : Table α) (k : String) (v : α) : Table α :=
  ⟨putEntry k v t.entries, nodup_keys_putEntry k v t.nodup_keys⟩

/-- Of several values under one name the last stays, at the place of the first. -/
def ofList (es : List (String × α)) : Table α :=
  es.foldl (fun t e => t.insert e.1 e.2) empty

def values (t : Table α) : List α :=
  t.entries.map Prod.snd

def sorted (t : Table α) : List (String × α) :=
  sortedByKey t.entries

def map (f : String → α → β) (t : Table α) : Table β :=
  ⟨t.entries.map fun e => (e.1, f e.1 e.2), by
    simpa [List.map_map, Function.comp_def] using t.nodup_keys⟩

@[simp] theorem get?_empty (k : String) : (∅ : Table α).get? k = none := rfl

@[simp] theorem entries_empty : (∅ : Table α).entries = [] := rfl

theorem keys_insert (t : Table α) (k : String) (v : α) :
    (t.insert k v).keys = if k ∈ t.keys then t.keys else t.keys ++ [k] :=
  keys_putEntry k v t.entries

theorem get?_insert (t : Table α) (k j : String) (v : α) :
    (t.insert k v).get? j = if j = k then some v else t.get? j :=
  lookup_putEntry k j v t.entries

theorem get?_eq_some_iff {t : Table α} {k : String} {v : α} :
    t.get? k = some v ↔ (k, v) ∈ t.entries :=
  ⟨mem_of_lookup_eq_some, lookup_eq_some_of_mem t.nodup_keys⟩

theorem forall_insert {P : String × α → Prop} {t : Table α} (ht : ∀ e ∈ t.entries, P e)
    {k : String} {v : α} (h : P (k, v)) : ∀ e ∈ (t.insert k v).entries, P e := by
  rintro ⟨j, w⟩ he
  have hget := get?_eq_some_iff.mpr he
  rw [get?_insert] at hget
  split at hget
  next hj => cases hget; exact hj ▸ h
  next => exact ht (j, w) (get?_eq_some_iff.mp hget)

end Table

end NodeLayers
