import NodeLayers.Node
import NodeLayers.Table

namespace NodeLayers

/-- The registered nodes under the names that they are asked for by. -/
abbrev Registry := Table Node

structure Directive where
  nodeName : String
  settings : Settings
deriving DecidableEq, Repr

namespace Directive

instance : EmptyCollection Directive :=
  ⟨⟨"", ∅⟩⟩

instance : Inhabited Directive :=
  ⟨∅⟩

def name : String :=
  "tailscale"

def defaultNode : String :=
  "default"

/-- A missing name stands for the default node. -/
def orDefault (name : String) : String :=
  if name = "" then defaultNode else name

def effectiveName (d : Directive) : String :=
  orDefault d.nodeName

/-- The node that a directive describes; nothing is taken over from other layers. -/
def node (d : Directive) : Node :=
  ⟨d.effectiveName, d.settings⟩

/-- Registers the directive's node in place of any other of that name. -/
def provision (d : Directive) (r : Registry) : Registry :=
  r.insert d.effectiveName d.node

/-- Reads the rest of a directive for this node with the cursor on the last argument: a further one
would hide the block. -/
def readRest (nodeName : String) (c : Cursor) : Except ParseError Directive × Cursor :=
  match c.nextArg? with
  | some surplus => (.error surplus.missingArgument, surplus)
  | none =>
    let filling := readOptions (∅ : Settings) c
    match filling.failure with
    | some e => (.error e, filling.cursor)
    | none => (.ok ⟨orDefault nodeName, filling.record⟩, filling.cursor)

/-- Reads one directive with the cursor on its name. The node's name is the argument, or the name in
`d` if there is none. -/
def readOne (d : Directive) (c : Cursor) : Except ParseError Directive × Cursor :=
  match c.nextArg? with
  | none => readRest d.nodeName c
  | some arg => readRest arg.text arg

theorem length_ahead_readRest_le (nodeName : String) (c : Cursor) :
    (readRest nodeName c).2.ahead.length ≤ c.ahead.length := by
  unfold readRest
  split
  next surplus hs =>
    have := Cursor.length_ahead_of_nextArg? hs
    simp only
    omega
  next =>
    have := length_ahead_readOptions_le (∅ : Settings) c
    simp only
    split <;> exact this

theorem length_ahead_readOne_le (d : Directive) (c : Cursor) :
    (readOne d c).2.ahead.length ≤ c.ahead.length := by
  unfold readOne
  split
  next => exact length_ahead_readRest_le d.nodeName c
  next arg h =>
    have := Cursor.length_ahead_of_nextArg? h
    have := length_ahead_readRest_le arg.text arg
    omega

/-- Reads directives up to the last token, each in place of the one before; a node's name once given
stays until another is. -/
def read (d : Directive) (c : Cursor) : Except ParseError Directive × Cursor :=
  match h : c.next? with
  | none => (.ok d, c)
  | some first =>
    match hr : readOne d first with
    | (.error e, f) => (.error e, f)
    | (.ok next, f) =>
      have : f.ahead.length < c.ahead.length := by
        have hfirst := Cursor.length_ahead_of_next? h
        have hf := length_ahead_readOne_le d first
        simp only [hr] at hf
        omega
      read next f
termination_by c.ahead.length

theorem read_of_none {d : Directive} {c : Cursor} (h : c.next? = none) : read d c = (.ok d, c) := by
  rw [read]
  split
  next => rfl
  next he => cases h.symm.trans he

theorem read_of_error {d : Directive} {c first f : Cursor} {e : ParseError}
    (h : c.next? = some first) (hr : readOne d first = (.error e, f)) :
    read d c = (.error e, f) := by
  rw [read]
  split
  next he => cases h.symm.trans he
  next he =>
    cases h.symm.trans he
    split
    next hf => cases hr.symm.trans hf; rfl
    next hf => cases hr.symm.trans hf

theorem read_of_ok {d e : Directive} {c first f : Cursor} (h : c.next? = some first)
    (hr : readOne d first = (.ok e, f)) : read d c = read e f := by
  rw [read]
  split
  next he => cases h.symm.trans he
  next he =>
    cases h.symm.trans he
    split
    next hf => cases hr.symm.trans hf
    next hf => cases hr.symm.trans hf; rfl

end Directive

end NodeLayers
