namespace NodeLayers

inductive Keyword
  | authKey
  | controlUrl
  | ephemeral
  | hostname
  | port
  | stateDir
  | webui
  | tags
deriving DecidableEq, Repr

namespace Keyword

def all : List Keyword :=
  [.authKey, .controlUrl, .ephemeral, .hostname, .port, .stateDir, .webui, .tags]

def text : Keyword → String
  | .authKey => "auth_key"
  | .controlUrl => "control_url"
  | .ephemeral => "ephemeral"
  | .hostname => "hostname"
  | .port => "port"
  | .stateDir => "state_dir"
  | .webui => "webui"
  | .tags => "tags"

def ofText? (s : String) : Option Keyword :=
  all.find? (·.text == s)

theorem mem_all (k : Keyword) : k ∈ all := by
  cases k <;> simp [all]

theorem text_inj {j k : Keyword} (h : j.text = k.text) : j = k := by
  revert h
  cases j <;> cases k <;> decide

theorem ofText?_eq_some {s : String} {k : Keyword} : ofText? s = some k ↔ k.text = s := by
  constructor
  · intro h
    simpa using List.find?_some h
  · rintro rfl
    cases h : ofText? k.text with
    | none => exact absurd (List.find?_eq_none.mp h k (mem_all k)) (by simp)
    | some j => exact congrArg some (text_inj (by simpa using List.find?_some h))

end Keyword

inductive Setting
  | authKey (value : String)
  | controlUrl (value : String)
  | ephemeral (value : Bool)
  | hostname (value : String)
  | port (value : UInt16)
  | stateDir (value : String)
  | webui (value : Bool)
  | tags (values : List String)
deriving DecidableEq, Repr

def Setting.keyword : Setting → Keyword
  | .authKey _ => .authKey
  | .controlUrl _ => .controlUrl
  | .ephemeral _ => .ephemeral
  | .hostname _ => .hostname
  | .port _ => .port
  | .stateDir _ => .stateDir
  | .webui _ => .webui
  | .tags _ => .tags

end NodeLayers
