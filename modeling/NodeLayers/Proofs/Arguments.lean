import NodeLayers.OptionBlock

namespace NodeLayers

/-- A text that gives no value, for this reason. -/
def RefusedValue (s : String) (reason : ValueFault) : Prop :=
  readBool s = .error reason ∨ readPort s = .error reason

/-- Something is read up to a cursor of one kind, with an error of another kind if with any. -/
structure ReadsTo (C : Cursor → Prop) (E : ParseError → Prop) {α : Type}
    (x : Except ParseError α × Cursor) : Prop where
  cursor : C x.2
  error : ∀ e, x.1 = .error e → E e

/-- Arguments lead from such a cursor to such a cursor, and what can be wrong with one is such an
error. -/
structure KeepsArguments (C : Cursor → Prop) (E : ParseError → Prop) : Prop where
  nextArg? : ∀ {c d}, C c → c.nextArg? = some d → C d
  missing : ∀ {c}, C c → E c.missingArgument
  invalid : ∀ {c reason}, C c → RefusedValue c.text reason → E (c.invalidValue reason)

variable {C : Cursor → Prop} {E : ParseError → Prop} {α β : Type} {c d : Cursor}

theorem ReadsTo.map {x : Except ParseError α × Cursor} (h : ReadsTo C E x) (f : α → β) :
    ReadsTo C E (x.map (·.map f) id) := by
  refine ⟨h.cursor, fun e he => h.error e ?_⟩
  obtain ⟨result, d⟩ := x
  cases result with
  | ok a => cases he
  | error e' => exact congrArg _ (Except.error.inj he)

theorem readsTo_ok (h : C c) (a : α) : ReadsTo C E ((.ok a, c) : Except ParseError α × Cursor) :=
  ⟨h, nofun⟩

theorem readsTo_error {e : ParseError} (h : C c) (he : E e) :
    ReadsTo C E ((.error e, c) : Except ParseError α × Cursor) :=
  ⟨h, fun _ hsame => Except.error.inj hsame ▸ he⟩

namespace KeepsArguments

variable (keeps : KeepsArguments C E)
include keeps

theorem args (h : C c) : C c.args.2 := by
  fun_induction Cursor.args c with
  | case1 => exact h
  | case2 c d hd hlt rest ih => exact ih (keeps.nextArg? h hd)

theorem requiredArg (h : C c) : ReadsTo C E c.requiredArg := by
  unfold Cursor.requiredArg
  split
  next => exact readsTo_error h (keeps.missing h)
  next d hd => exact readsTo_ok (keeps.nextArg? h hd) d.text

theorem value (h : C c) {x : Except ValueFault α}
    (hx : ∀ reason, x = .error reason → RefusedValue c.text reason) :
    ReadsTo C E (x.mapError c.invalidValue, c) := by
  cases x with
  | ok a => exact readsTo_ok h a
  | error reason => exact readsTo_error h (keeps.invalid h (hx reason rfl))

theorem flagArg (h : C c) : ReadsTo C E c.flagArg := by
  unfold Cursor.flagArg
  split
  next => exact readsTo_ok h true
  next d hd => exact keeps.value (keeps.nextArg? h hd) fun _ => Or.inl

theorem portArg (h : C c) : ReadsTo C E c.portArg := by
  unfold Cursor.portArg
  split
  next => exact readsTo_error h (keeps.missing h)
  next d hd => exact keeps.value (keeps.nextArg? h hd) fun _ => Or.inr

theorem setting (h : C c) (k : Keyword) : ReadsTo C E (c.setting k) := by
  cases k with
  | authKey => exact (keeps.requiredArg h).map _
  | controlUrl => exact (keeps.requiredArg h).map _
  | ephemeral => exact (keeps.flagArg h).map _
  | hostname => exact (keeps.requiredArg h).map _
  | port => exact (keeps.portArg h).map _
  | stateDir => exact (keeps.requiredArg h).map _
  | webui => exact (keeps.flagArg h).map _
  | tags => exact readsTo_ok (keeps.args h) _

end KeepsArguments

end NodeLayers
