import NodeLayers.Proofs.GlobalOption

namespace NodeLayers

/-- What filling a record comes to: the record, or the fault that stopped it. -/
def Filling.result {τ : Type} (f : Filling τ) : Except ParseError τ :=
  match f.failure with
  | none => .ok f.record
  | some e => .error e

section result

variable {τ : Type} {f : Filling τ}

theorem Filling.result_of_none (h : f.failure = none) : f.result = .ok f.record := by
  rw [result, h]

theorem Filling.result_of_some {e : ParseError} (h : f.failure = some e) : f.result = .error e := by
  rw [result, h]

theorem Filling.of_result {record : τ} (h : f.result = .ok record) :
    f.failure = none ∧ f.record = record := by
  obtain ⟨filled, cursor, failure⟩ := f
  cases failure with
  | none => exact ⟨rfl, Except.ok.inj h⟩
  | some e => cases h

theorem Filling.exists_error (h : f.failure ≠ none) : ∃ e, f.result = .error e := by
  obtain ⟨e, he⟩ := Option.ne_none_iff_exists'.mp h
  exact ⟨e, Filling.result_of_some he⟩

theorem Filling.failure_of_result {e : ParseError} (h : f.result = .error e) :
    f.failure = some e := by
  unfold result at h
  split at h
  next => cases h
  next hf => cases h; exact hf

end result

/-- The options that the lines of a block give from here on, up to the first that cannot be read. -/
def Cursor.options (c : Cursor) : List Setting :=
  match h : c.nextInBlock 0 with
  | (false, _) => []
  | (true, d) =>
    match Keyword.ofText? d.text with
    | none => []
    | some k =>
      match hs : d.setting k with
      | (.error _, _) => []
      | (.ok s, f) =>
        have : f.ahead.length < c.ahead.length := by
          have hd := Cursor.length_ahead_of_nextInBlock h
          have hf := Cursor.length_ahead_setting_le d k
          simp only [hs] at hf
          omega
        s :: f.options
termination_by c.ahead.length

section options

variable {c d f : Cursor} {k : Keyword}

theorem Cursor.options_of_false (h : c.nextInBlock 0 = (false, d)) : c.options = [] := by
  rw [options]
  split
  next => rfl
  next he => cases h.symm.trans he

theorem Cursor.options_of_unknown (h : c.nextInBlock 0 = (true, d))
    (hk : Keyword.ofText? d.text = none) : c.options = [] := by
  rw [options]
  split
  next => rfl
  next he =>
    cases h.symm.trans he
    split
    next => rfl
    next hs => cases hk.symm.trans hs

theorem Cursor.options_of_error {e : ParseError} (h : c.nextInBlock 0 = (true, d))
    (hk : Keyword.ofText? d.text = some k) (hs : d.setting k = (.error e, f)) :
    c.options = [] := by
  rw [options]
  split
  next => rfl
  next he =>
    cases h.symm.trans he
    split
    next => rfl
    next hj =>
      cases hk.symm.trans hj
      split
      next => rfl
      next hf => cases hs.symm.trans hf

theorem Cursor.options_of_ok {s : Setting} (h : c.nextInBlock 0 = (true, d))
    (hk : Keyword.ofText? d.text = some k) (hs : d.setting k = (.ok s, f)) :
    c.options = s :: f.options := by
  rw [options]
  split
  next he => cases h.symm.trans he
  next he =>
    cases h.symm.trans he
    split
    next hn => cases hk.symm.trans hn
    next hj =>
      cases hk.symm.trans hj
      split
      next hf => cases hs.symm.trans hf
      next hf => cases hs.symm.trans hf; rfl

end options

/-- A node's settings take every option. -/
theorem Settings.keyword?_eq (record : Settings) (s : String) :
    OptionRecord.keyword? record s = Keyword.ofText? s := by
  rw [OptionRecord.keyword?]
  cases Keyword.ofText? s with
  | none => rfl
  | some k => exact Option.filter_some_pos rfl

/-- What a block says about a node is its options, set one after the other. -/
theorem record_readOptions (record : Settings) (c : Cursor) :
    (readOptions record c).record = c.options.foldl Settings.set record := by
  fun_induction readOptions record c with
  | case1 record c d h =>
    rw [Cursor.options_of_false h]
    rfl
  | case2 record c d h hk =>
    rw [Settings.keyword?_eq] at hk
    rw [Cursor.options_of_unknown h hk]
    rfl
  | case3 record c d h k hk e f hs =>
    rw [Settings.keyword?_eq] at hk
    rw [Cursor.options_of_error h hk hs]
    rfl
  | case4 record c d h k hk s f hs _ ih =>
    rw [Settings.keyword?_eq] at hk
    rw [Cursor.options_of_ok h hk hs, List.foldl_cons, ih]
    rfl

/-- At a stop in a block there is an option and the reading goes on behind it, or a fault ends
it. -/
theorem readOptions_stop {τ : Type} [OptionRecord τ] (record : τ) {c d : Cursor}
    (h : c.nextInBlock 0 = (true, d)) :
    (readOptions record c).failure = some d.unknownOption ∨
      ∃ k, (∃ e, (d.setting k).1 = .error e ∧ (readOptions record c).failure = some e) ∨
        ∃ s, readOptions record c = readOptions (OptionRecord.set record s) (d.setting k).2 := by
  cases hk : OptionRecord.keyword? record d.text with
  | none =>
    left
    rw [readOptions_of_unknown h hk]
  | some k =>
    refine Or.inr ⟨k, ?_⟩
    cases hs : d.setting k with
    | mk result f =>
      cases result with
      | error e =>
        refine Or.inl ⟨e, rfl, ?_⟩
        rw [readOptions_of_error h hk hs]
      | ok s => exact Or.inr ⟨s, readOptions_of_ok h hk hs⟩

/-- Inside its block the reader of options stops at the last token or at a fault. -/
theorem ahead_readOptions {τ : Type} [OptionRecord τ] {record : τ} {c : Cursor}
    (h : c.EndsWithin) (hn : 0 < c.nesting) (hf : (readOptions record c).failure = none) :
    (readOptions record c).cursor.ahead = [] := by
  fun_induction readOptions record c with
  | case1 record c d hd => exact (h.nextInBlock hn hd).2.2 rfl
  | case2 => cases hf
  | case3 => cases hf
  | case4 record c d hd k hk s f hs _ ih =>
    obtain ⟨hinside, hpos, _⟩ := h.nextInBlock hn hd
    obtain ⟨hset, hnesting⟩ := hinside.setting k
    rw [hs] at hset hnesting
    have hn' : 0 < f.nesting := hnesting ▸ hpos rfl
    exact ih hset hn' hf

namespace Settings

/-- Nothing is said about this option. -/
def LeavesOpen (s : Settings) : Keyword → Prop
  | .authKey => s.authKey = ""
  | .controlUrl => s.controlUrl = ""
  | .ephemeral => s.ephemeral = none
  | .hostname => s.hostname = ""
  | .port => s.port = 0
  | .stateDir => s.stateDir = ""
  | .webui => s.webui = none
  | .tags => s.tags = []

theorem leavesOpen_empty (k : Keyword) : (∅ : Settings).LeavesOpen k := by
  cases k <;> rfl

theorem LeavesOpen.set {s : Settings} {o : Setting} {k : Keyword} (h : s.LeavesOpen k)
    (ho : o.keyword ≠ k) : (s.set o).LeavesOpen k := by
  cases o <;> cases k <;> first | exact h | exact absurd rfl ho

theorem LeavesOpen.foldl_set {options : List Setting} {s : Settings} {k : Keyword}
    (h : s.LeavesOpen k) (ho : ∀ o ∈ options, o.keyword ≠ k) :
    (options.foldl Settings.set s).LeavesOpen k := by
  induction options generalizing s with
  | nil => exact h
  | cons o options ih =>
    exact ih (h.set (ho o List.mem_cons_self)) fun p hp => ho p (List.mem_cons_of_mem o hp)

end Settings

end NodeLayers
