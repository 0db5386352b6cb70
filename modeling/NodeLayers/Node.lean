import NodeLayers.OptionBlock

namespace NodeLayers

/-- A flag that a layer may leave open, so that a lower layer still decides it. -/
abbrev Flag := Option Bool

/-- What a layer says about one node. Empty texts, an open flag, port 0 and no tags mean that the
layer says nothing. -/
structure Settings where
  authKey : String
  controlUrl : String
  ephemeral : Flag
  webui : Flag
  hostname : String
  port : UInt16
  stateDir : String
  tags : List String
deriving DecidableEq, Repr

def Settings.empty : Settings :=
  ⟨"", "", none, none, "", 0, "", []⟩

instance : EmptyCollection Settings :=
  ⟨Settings.empty⟩

instance : Inhabited Settings :=
  ⟨Settings.empty⟩

/-- Tags add up; any other option replaces what was given before. -/
def Settings.set (s : Settings) : Setting → Settings
  | .authKey value => { s with authKey := value }
  | .controlUrl value => { s with controlUrl := value }
  | .ephemeral value => { s with ephemeral := some value }
  | .hostname value => { s with hostname := value }
  | .port value => { s with port := value }
  | .stateDir value => { s with stateDir := value }
  | .webui value => { s with webui := some value }
  | .tags values => { s with tags := s.tags ++ values }

instance : OptionRecord Settings where
  takes _ _ := true
  set := Settings.set

structure Node where
  name : String
  settings : Settings
deriving DecidableEq, Repr

instance : Inhabited Node :=
  ⟨⟨"", ∅⟩⟩

/-- Reads a block of options under the name that the current token gives. The cursor behind the
block comes with the node, or with the error. -/
def Node.read (c : Cursor) : Except ParseError Node × Cursor :=
  if c.opensBlock then
    let inside := c.enterSegment
    let filling := readOptions (∅ : Settings) (inside.1.next?.getD inside.1)
    match filling.failure with
    | none => (.ok ⟨c.text, filling.record⟩, inside.2)
    | some e => (.error e, inside.2)
  else (.error c.missingArgument, c)

theorem Node.length_ahead_read_le (c : Cursor) :
    (Node.read c).2.ahead.length ≤ c.ahead.length := by
  have := Cursor.length_ahead_segment_le c
  unfold Node.read
  split
  next => simp only; split <;> simpa [Cursor.enterSegment]
  next => exact Nat.le_refl _

end NodeLayers
