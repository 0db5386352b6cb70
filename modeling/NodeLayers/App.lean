import NodeLayers.Node
import NodeLayers.Table

namespace NodeLayers

/-- The defaults of all nodes and the blocks of the named ones. -/
structure App where
  authKey : String
  controlUrl : String
  ephemeral : Bool
  stateDir : String
  webui : Bool
  tags : List String
  nodes : Table Node
deriving DecidableEq

namespace App

def empty : App :=
  ⟨"", "", false, "", false, [], ∅⟩

instance : EmptyCollection App :=
  ⟨empty⟩

instance : Inhabited App :=
  ⟨empty⟩

/-- The name of the global option, and of the entry in the host's configuration. -/
def name : String :=
  "tailscale"

/-- A host name and a port belong to single nodes. -/
def takes (_ : App) (k : Keyword) : Bool :=
  k ≠ .hostname ∧ k ≠ .port

def set (a : App) : Setting → App
  | .authKey value => { a with authKey := value }
  | .controlUrl value => { a with controlUrl := value }
  | .ephemeral value => { a with ephemeral := value }
  | .stateDir value => { a with stateDir := value }
  | .webui value => { a with webui := value }
  | .tags values => { a with tags := a.tags ++ values }
  | .hostname _ | .port _ => a

instance : OptionRecord App where
  takes := takes
  set := set

/-- A block for a node that had one already takes its place. -/
def putNode (a : App) (node : Node) : App :=
  { a with nodes := a.nodes.insert node.name node }

/-- One step of the option block: the current token is an option or names a node. -/
def readEntry (a : App) (c : Cursor) : Except ParseError App × Cursor :=
  match OptionRecord.keyword? a c.text with
  | some k => (c.setting k).map (·.map a.set) id
  | none => (Node.read c).map (·.map a.putNode) id

theorem length_ahead_readEntry_le (a : App) (c : Cursor) :
    (a.readEntry c).2.ahead.length ≤ c.ahead.length := by
  unfold readEntry
  split
  next k _ => simpa using Cursor.length_ahead_setting_le c k
  next => simpa using Node.length_ahead_read_le c

def readBlock (a : App) (c : Cursor) : Filling App :=
  match h : c.nextInBlock 0 with
  | (false, d) => ⟨a, d, none⟩
  | (true, d) =>
    match hs : a.readEntry d with
    | (.error e, f) => ⟨a, f, some e⟩
    | (.ok b, f) =>
      have : f.ahead.length < c.ahead.length := by
        have hd := Cursor.length_ahead_of_nextInBlock h
        have hf := length_ahead_readEntry_le a d
        simp only [hs] at hf
        omega
      b.readBlock f
termination_by c.ahead.length

theorem readBlock_of_false {a : App} {c d : Cursor} (h : c.nextInBlock 0 = (false, d)) :
    a.readBlock c = ⟨a, d, none⟩ := by
  rw [readBlock]
  split
  next he => cases h.symm.trans he; rfl
  next he => cases h.symm.trans he

theorem readBlock_of_error {a : App} {c d f : Cursor} {e : ParseError}
    (h : c.nextInBlock 0 = (true, d)) (hs : a.readEntry d = (.error e, f)) :
    a.readBlock c = ⟨a, f, some e⟩ := by
  rw [readBlock]
  split
  next he => cases h.symm.trans he
  next he =>
    cases h.symm.trans he
    split
    next hf => cases hs.symm.trans hf; rfl
    next hf => cases hs.symm.trans hf

theorem readBlock_of_ok {a b : App} {c d f : Cursor} (h : c.nextInBlock 0 = (true, d))
    (hs : a.readEntry d = (.ok b, f)) : a.readBlock c = b.readBlock f := by
  rw [readBlock]
  split
  next he => cases h.symm.trans he
  next he =>
    cases h.symm.trans he
    split
    next hf => cases hs.symm.trans hf
    next hf => cases hs.symm.trans hf; rfl

def read (c : Cursor) : Except ParseError App × Cursor :=
  match c.next? with
  | none => (.error c.missingArgument, c)
  | some d =>
    let filling := (∅ : App).readBlock d
    match filling.failure with
    | none => (.ok filling.record, filling.cursor)
    | some e => (.error e, filling.cursor)

end App

end NodeLayers
