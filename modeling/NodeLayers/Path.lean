namespace NodeLayers

structure Path where
  text : String
deriving DecidableEq, Repr

/-- The steps between the slashes. Empty steps and `.` lead nowhere and are dropped, but a `.` that
opens a relative path is kept. -/
def Path.steps (p : Path) : List String :=
  let parts := p.text.splitOn "/"
  let named := parts.filter fun step => step ≠ "" ∧ step ≠ "."
  if parts.head? = some "." then "." :: named else named

def Path.isRooted (p : Path) : Bool :=
  p.text.toList.head? = some '/'

/-- Two paths agree when they start at the same place and take the same steps. -/
def Path.agrees (p q : Path) : Bool :=
  p.isRooted = q.isRooted ∧ p.steps = q.steps

/-- Where a token comes from; text without a path of its own has none. -/
abbrev Source := Option Path

def Source.agrees : Source → Source → Bool
  | none, none => true
  | some p, some q => p.agrees q
  | _, _ => false

@[simp] theorem Path.agrees_self (p : Path) : p.agrees p = true := by
  simp [Path.agrees]

@[simp] theorem Source.agrees_self (s : Source) : Source.agrees s s = true := by
  cases s <;> simp [Source.agrees]

structure Location where
  source : Source
  line : Nat
deriving DecidableEq, Repr

/-- A location as it is shown; text without a path is called by the usual file name. -/
def Location.text (l : Location) : String :=
  (match l.source with
    | some path => path.text
    | none => "Caddyfile") ++ ":" ++ toString l.line

end NodeLayers
