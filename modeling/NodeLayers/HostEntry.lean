import NodeLayers.Directive
import NodeLayers.Json
import NodeLayers.Resolution

namespace NodeLayers

def textMember (k : Keyword) (value : String) : List (String × Json) :=
  if value = "" then [] else [(k.text, .text value)]

def flagMember (k : Keyword) : Flag → List (String × Json)
  | none => []
  | some value => [(k.text, .bool value)]

def switchMember (k : Keyword) (value : Bool) : List (String × Json) :=
  if value then [(k.text, .bool true)] else []

def portMember (value : UInt16) : List (String × Json) :=
  if value = 0 then [] else [(Keyword.port.text, .integer value.toNat)]

def tagsMember (values : List String) : List (String × Json) :=
  if values.isEmpty then [] else [(Keyword.tags.text, .list (values.map .text))]

def Flag.json : Flag → Json
  | none => .null
  | some value => .bool value

/-- What the settings say, member by member; what they leave open is left out. -/
def Settings.members (s : Settings) : List (String × Json) :=
  textMember .authKey s.authKey ++ textMember .controlUrl s.controlUrl ++
    flagMember .ephemeral s.ephemeral ++ flagMember .webui s.webui ++
    textMember .hostname s.hostname ++ portMember s.port ++ textMember .stateDir s.stateDir ++
    tagsMember s.tags

def Settings.json (s : Settings) : Json :=
  .object s.members

/-- A node's own name is not written: it is the key under which the node stands. -/
def Node.json (n : Node) : Json :=
  n.settings.json

namespace App

def nodesField : String :=
  "nodes"

def nodesMember (nodes : Table Node) : List (String × Json) :=
  if nodes.isEmpty then []
  else [(nodesField, .object (nodes.entries.map fun e => (e.1, e.2.json)))]

def members (a : App) : List (String × Json) :=
  textMember .authKey a.authKey ++ textMember .controlUrl a.controlUrl ++
    switchMember .ephemeral a.ephemeral ++ textMember .stateDir a.stateDir ++
    switchMember .webui a.webui ++ tagsMember a.tags ++ nodesMember a.nodes

def json (a : App) : Json :=
  .object a.members

/-- The entry that registers the app in the host's configuration. -/
def entry (a : App) : Json :=
  .object [("name", .text name), ("value", a.json.sorted)]

end App

namespace Directive

def nodeNameField : String :=
  "node_name"

def members (d : Directive) : List (String × Json) :=
  (if d.nodeName = "" then [] else [(nodeNameField, .text d.nodeName)]) ++ d.settings.members

def json (d : Directive) : Json :=
  .object d.members

/-- The entry that registers the directive as a handler in the host's configuration. -/
def handler (d : Directive) : Json :=
  .object (("handler", .text name) :: d.members)

end Directive

namespace Resolution

def sourceName : Resolution → String
  | .site _ => "site"
  | .named _ => "named"
  | .defaults _ => "defaults"

def valueJson : Resolution → Json
  | .site node | .named node => node.json
  | .defaults app => app.json

def json (r : Resolution) : Json :=
  .object [("source", .text r.sourceName), ("node", r.valueJson)]

end Resolution

def Registry.json (r : Registry) : Json :=
  .object (r.sorted.map fun e => (e.1, e.2.json))

end NodeLayers
