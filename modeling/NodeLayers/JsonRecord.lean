import NodeLayers.App
import NodeLayers.Directive
import NodeLayers.HostEntry
import NodeLayers.JsonReader

namespace NodeLayers

def maxDepth : Nat :=
  127

/-- A flag, which may be any value before it is refused. -/
def readFlag (room : Nat) (cs : List Char) : Except JsonError (Parsed Flag) := do
  let (j, rest) ← readValue room cs
  match j.found.asFlag with
  | .ok flag => .ok (flag, rest)
  | .error reason => .error (.mismatch reason)

/-- A flag of the defaults, which are never open. -/
def readSwitch (cs : List Char) : Except JsonError (Parsed Flag) :=
  readAs (fun f => f.asBoolean.map some) cs

def readTags (cs : List Char) : Except JsonError (Parsed (List String)) := do
  let (f, rest) ← readFound cs
  match f with
  | .list =>
    readItems (fun tags cs => do
      let (tag, rest) ← readAs Found.asText cs
      .ok (tags ++ [tag], rest)) [] rest
  | _ => .error (.mismatch (.wrongType f .list))

/-- The setting that the value of a keyword's field makes; an open flag makes none. -/
def readSetting (flag : Reader Flag) (k : Keyword) (cs : List Char) :
    Except JsonError (Parsed (Option Setting)) :=
  let text (setting : String → Setting) : Except JsonError (Parsed (Option Setting)) := do
    let (s, rest) ← readAs Found.asText cs
    .ok (some (setting s), rest)
  let switch (setting : Bool → Setting) : Except JsonError (Parsed (Option Setting)) := do
    let (value, rest) ← flag cs
    .ok (value.map setting, rest)
  match k with
  | .authKey => text .authKey
  | .controlUrl => text .controlUrl
  | .ephemeral => switch .ephemeral
  | .hostname => text .hostname
  | .port => do
    let (port, rest) ← readAs Found.asPort cs
    .ok (some (.port port), rest)
  | .stateDir => text .stateDir
  | .webui => switch .webui
  | .tags => do
    let (tags, rest) ← readTags cs
    .ok (some (.tags tags), rest)

/-- A record as far as it was read, and the names of the fields read. -/
structure Partly (τ : Type) where
  record : τ
  seen : List String

/-- A field may be given once. -/
def Partly.note {τ : Type} (p : Partly τ) (name : String) : Except JsonError (Partly τ) :=
  if name ∈ p.seen then .error (.mismatch (.repeatedField name))
  else .ok ⟨p.record, name :: p.seen⟩

def setOption {τ : Type} [OptionRecord τ] (record : τ) : Option Setting → τ
  | none => record
  | some setting => OptionRecord.set record setting

namespace Settings

/-- The fields in the order in which they are written. -/
def fieldOrder : List Keyword :=
  [.authKey, .controlUrl, .ephemeral, .webui, .hostname, .port, .stateDir, .tags]

def readField (room : Nat) (s : Settings) (k : Keyword) (cs : List Char) :
    Except JsonError (Parsed Settings) := do
  let (setting, rest) ← readSetting (readFlag room) k cs
  .ok (setOption s setting, rest)

/-- A member of any other name is passed over. -/
def readMember (room : Nat) (p : Partly Settings) (name : String) (cs : List Char) :
    Except JsonError (Parsed (Partly Settings)) := do
  match Keyword.ofText? name with
  | none => .ok (p, ← skipValue (← skipColon cs))
  | some k =>
    let p ← p.note name
    let (record, rest) ← readField room p.record k (← skipColon cs)
    .ok ({ p with record }, rest)

/-- Settings as an object, or as a list of the fields in their order, which may end early. -/
def readJson (room : Nat) (cs : List Char) : Except JsonError (Parsed Settings) := do
  let (f, rest) ← readFound cs
  match f with
  | .object =>
    let (p, rest) ← readMembers (readMember (room - 1)) ⟨∅, []⟩ rest
    .ok (p.record, rest)
  | .list =>
    let (p, rest) ← readItems (fun (p : Settings × List Keyword) cs =>
      match p.2 with
      | [] => .error .malformed
      | k :: later => do
        let (record, rest) ← readField (room - 1) p.1 k cs
        .ok ((record, later), rest)) (∅, fieldOrder) rest
    .ok (p.1, rest)
  | _ => .error (.mismatch (.wrongType f .node))

end Settings

def Flag.ofJsonText (s : String) : Except JsonError Flag :=
  readWholeText (readFlag maxDepth) s

def Settings.ofJsonText (s : String) : Except JsonError Settings :=
  readWholeText (Settings.readJson maxDepth) s

namespace App

/-- The fields in the order in which they are written; the last one holds the nodes. -/
def fieldOrder : List (Option Keyword) :=
  [some .authKey, some .controlUrl, some .ephemeral, some .stateDir, some .webui, some .tags, none]

/-- The nodes by their names. Of two nodes under one name the last counts. -/
def readNodes (room : Nat) (cs : List Char) : Except JsonError (Parsed (Table Node)) := do
  let (f, rest) ← readFound cs
  match f with
  | .object =>
    readMembers (fun (nodes : Table Node) name cs => do
      let (settings, rest) ← Settings.readJson (room - 1) (← skipColon cs)
      .ok (nodes.insert name ⟨name, settings⟩, rest)) ∅ rest
  | _ => .error (.mismatch (.wrongType f .object))

def readField (room : Nat) (a : App) (field : Option Keyword) (cs : List Char) :
    Except JsonError (Parsed App) :=
  match field with
  | none => do
    let (nodes, rest) ← readNodes room cs
    .ok ({ a with nodes }, rest)
  | some k => do
    let (setting, rest) ← readSetting readSwitch k cs
    .ok (setOption a setting, rest)

/-- The field of a name, none if there is no such field. -/
def field? (a : App) (name : String) : Option (Option Keyword) :=
  if name = nodesField then some none else (OptionRecord.keyword? a name).map some

def readMember (room : Nat) (p : Partly App) (name : String) (cs : List Char) :
    Except JsonError (Parsed (Partly App)) := do
  match field? p.record name with
  | none => .ok (p, ← skipValue (← skipColon cs))
  | some field =>
    let p ← p.note name
    let (record, rest) ← readField room p.record field (← skipColon cs)
    .ok ({ p with record }, rest)

/-- The app as an object, or as a list of the fields in their order, which may end early. -/
def readJson (room : Nat) (cs : List Char) : Except JsonError (Parsed App) := do
  let (f, rest) ← readFound cs
  match f with
  | .object =>
    let (p, rest) ← readMembers (readMember (room - 1)) ⟨∅, []⟩ rest
    .ok (p.record, rest)
  | .list =>
    let (p, rest) ← readItems (fun (p : App × List (Option Keyword)) cs =>
      match p.2 with
      | [] => .error .malformed
      | field :: later => do
        let (record, rest) ← readField (room - 1) p.1 field cs
        .ok ((record, later), rest)) (∅, fieldOrder) rest
    .ok (p.1, rest)
  | _ => .error (.mismatch (.wrongType f .app))

def ofJsonText (s : String) : Except JsonError App :=
  readWholeText (readJson maxDepth) s

end App

def tagsOfItems : List Json → Except Mismatch (List String)
  | [] => .ok []
  | j :: rest => do
    let tag ← j.found.asText
    .ok (tag :: (← tagsOfItems rest))

def Keyword.settingOf (k : Keyword) (j : Json) : Except Mismatch (Option Setting) :=
  match k with
  | .authKey => j.found.asText.map (some ∘ .authKey)
  | .controlUrl => j.found.asText.map (some ∘ .controlUrl)
  | .ephemeral => j.found.asFlag.map (·.map .ephemeral)
  | .hostname => j.found.asText.map (some ∘ .hostname)
  | .port => j.found.asPort.map (some ∘ .port)
  | .stateDir => j.found.asText.map (some ∘ .stateDir)
  | .webui => j.found.asFlag.map (·.map .webui)
  | .tags =>
    match j with
    | .list items => (tagsOfItems items).map (some ∘ .tags)
    | _ => .error (.wrongType j.found .list)

/-- Settings from members read before; the first that does not fit counts. -/
def Partly.addMembers (p : Partly Settings) :
    List (String × Json) → Except JsonError (Partly Settings)
  | [] => .ok p
  | (name, j) :: rest =>
    match Keyword.ofText? name with
    | none => p.addMembers rest
    | some k => do
      let p ← p.note name
      match k.settingOf j with
      | .ok setting => Partly.addMembers { p with record := setOption p.record setting } rest
      | .error reason => .error (.mismatch reason)

namespace Directive

/-- The node name is read at once, the value of any other member is kept. -/
def readMember (room : Nat) (p : Option String × List (String × Json)) (name : String)
    (cs : List Char) : Except JsonError (Parsed (Option String × List (String × Json))) := do
  if name = nodeNameField then
    if p.1.isSome then .error (.mismatch (.repeatedField name))
    else
      let (s, rest) ← readAs Found.asText (← skipColon cs)
      .ok ((some s, p.2), rest)
  else
    let (j, rest) ← readValue room (← skipColon cs)
    .ok ((p.1, p.2 ++ [(name, j)]), rest)

/-- A directive is an object; its settings are made after all of it was read. -/
def readJson (room : Nat) (cs : List Char) : Except JsonError (Parsed Directive) := do
  let (f, rest) ← readFound cs
  match f with
  | .object =>
    let (p, rest) ← readMembers (readMember (room - 1)) (none, []) rest
    let settings ← Partly.addMembers ⟨∅, []⟩ p.2
    .ok (⟨p.1.getD "", settings.record⟩, rest)
  | _ => .error (.mismatch (.wrongType f .directive))

def ofJsonText (s : String) : Except JsonError Directive :=
  readWholeText (readJson maxDepth) s

end Directive

end NodeLayers
